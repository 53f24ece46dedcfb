import Mathlib.Data.Set.Basic
import SugaredLambda.Proofs.Church.Placement
import SugaredLambda.Term.FreeNames

/-! The free names of a term by its nodes (`collects_namesHiding`). -/
namespace SugaredLambda.Term

namespace Tally
variable {tally : Tally} {x y : String}

def count (tally : Tally) (x : String) : Nat := (tally.lookup x).getD 0

/-- Each name once, and only names that are bound. -/
structure Sound (tally : Tally) : Prop where
  distinct : (tally.map (·.1)).Nodup
  positive : ∀ e ∈ tally, 0 < e.2

theorem sound_nil : Sound [] := ⟨List.nodup_nil, fun _ he => absurd he List.not_mem_nil⟩

theorem sound_cons {e : String × Nat} :
    Sound (e :: tally) ↔ (e.1 ∉ tally.map (·.1) ∧ 0 < e.2) ∧ tally.Sound := by
  constructor
  · rintro ⟨distinct, positive⟩
    obtain ⟨hnew, hdistinct⟩ := List.nodup_cons.1 distinct
    obtain ⟨hpos, hpositive⟩ := List.forall_mem_cons.1 positive
    exact ⟨⟨hnew, hpos⟩, hdistinct, hpositive⟩
  · rintro ⟨⟨hnew, hpos⟩, hsound⟩
    exact ⟨List.nodup_cons.2 ⟨hnew, hsound.distinct⟩,
      List.forall_mem_cons.2 ⟨hpos, hsound.positive⟩⟩

theorem count_cons (e : String × Nat) :
    count (e :: tally) x = if x = e.1 then e.2 else tally.count x := by
  rw [count, List.lookup_cons]
  by_cases h : x = e.1
  · rw [if_pos h, beq_iff_eq.2 h]
    rfl
  · rw [if_neg h, beq_false_of_ne h]
    rfl

theorem count_of_not_mem (h : x ∉ tally.map (·.1)) : tally.count x = 0 := by
  induction tally with
  | nil => rfl
  | cons e rest ih =>
    rw [List.map_cons, List.mem_cons, not_or] at h
    rw [count_cons, if_neg h.1, ih h.2]

theorem count_raise (x y : String) (tally : Tally) :
    (tally.raise y).count x = tally.count x + if x = y then 1 else 0 := by
  induction tally with
  | nil =>
    rw [raise, count_cons, count, List.lookup_nil]
    split <;> rfl
  | cons e rest ih =>
    rw [raise]
    split <;> simp only [count_cons, ih] <;> grind

theorem map_raise (x y : String) (tally : Tally) :
    x ∈ (tally.raise y).map (·.1) ↔ x = y ∨ x ∈ tally.map (·.1) := by
  induction tally with
  | nil => simp [raise]
  | cons e rest ih =>
    rw [raise]
    split <;> simp only [List.map_cons, List.mem_cons, ih] <;> grind

theorem Sound.raise (h : tally.Sound) (x : String) : (tally.raise x).Sound := by
  induction tally with
  | nil => exact sound_cons.2 ⟨⟨List.not_mem_nil, Nat.zero_lt_one⟩, sound_nil⟩
  | cons e rest ih =>
    obtain ⟨⟨hnew, hpos⟩, hrest⟩ := sound_cons.1 h
    rw [Tally.raise]
    split
    · exact sound_cons.2 ⟨⟨hnew, Nat.succ_pos _⟩, hrest⟩
    next hne =>
      refine sound_cons.2 ⟨⟨fun hmem => ?_, hpos⟩, ih hrest⟩
      exact ((map_raise _ _ _).1 hmem).elim (fun he => hne he.symm) hnew

theorem map_lower_subset (x : String) (tally : Tally) :
    (tally.lower x).map (·.1) ⊆ tally.map (·.1) := by
  induction tally with
  | nil => exact List.Subset.refl _
  | cons e rest ih =>
    rw [lower]
    split
    · split
      · exact List.subset_cons_self _ _
      · exact List.Subset.refl _
    · exact List.cons_subset_cons _ ih

theorem Sound.lower (h : tally.Sound) (x : String) : (tally.lower x).Sound := by
  induction tally with
  | nil => exact h
  | cons e rest ih =>
    obtain ⟨⟨hnew, hpos⟩, hrest⟩ := sound_cons.1 h
    rw [Tally.lower]
    split
    · split
      · exact hrest
      · exact sound_cons.2 ⟨⟨hnew, by omega⟩, hrest⟩
    · exact sound_cons.2 ⟨⟨fun hmem => hnew (map_lower_subset x rest hmem), hpos⟩, ih hrest⟩

theorem count_lower (h : tally.Sound) (x y : String) :
    (tally.lower y).count x = tally.count x - if x = y then 1 else 0 := by
  induction tally with
  | nil => simp [lower, count]
  | cons e rest ih =>
    obtain ⟨⟨hnew, hpos⟩, hrest⟩ := sound_cons.1 h
    have hgone := count_of_not_mem hnew
    rw [lower]
    split
    · split <;> simp only [count_cons] <;> grind
    · simp only [count_cons, ih hrest]
      grind

theorem binds_eq_false_iff (h : tally.Sound) : tally.binds x = false ↔ tally.count x = 0 := by
  induction tally with
  | nil => simp [binds, count]
  | cons e rest ih =>
    obtain ⟨⟨-, hpos⟩, hrest⟩ := sound_cons.1 h
    have hbinds : binds (e :: rest) x = (e.1 == x || binds rest x) := rfl
    rw [hbinds, Bool.or_eq_false_iff, ih hrest, beq_eq_false_iff_ne, count_cons]
    grind

theorem raise_all (names : List String) (h : tally.Sound) :
    (names.foldl (fun tally x => tally.raise x) tally).Sound ∧
      ∀ x, (names.foldl (fun tally x => tally.raise x) tally).count x =
        tally.count x + names.count x := by
  induction names generalizing tally with
  | nil => exact ⟨h, fun _ => rfl⟩
  | cons y names ih =>
    obtain ⟨hsound, hcount⟩ := ih (h.raise y)
    refine ⟨hsound, fun x => ?_⟩
    rw [List.foldl_cons, hcount, count_raise, List.count_cons]
    by_cases hxy : x = y
    · simp [hxy]
      omega
    · simp [hxy, Ne.symm hxy]

theorem lower_all (names : List String) (h : tally.Sound) :
    (names.foldl (fun tally x => tally.lower x) tally).Sound ∧
      ∀ x, (names.foldl (fun tally x => tally.lower x) tally).count x =
        tally.count x - names.count x := by
  induction names generalizing tally with
  | nil => exact ⟨h, fun _ => rfl⟩
  | cons y names ih =>
    obtain ⟨hsound, hcount⟩ := ih (h.lower y)
    refine ⟨hsound, fun x => ?_⟩
    rw [List.foldl_cons, hcount, count_lower h, List.count_cons]
    by_cases hxy : x = y
    · simp [hxy]
      omega
    · simp [hxy, Ne.symm hxy]

end Tally

/-- Whatever is bound around it: gives the tally back, and finds those of some names that are
not bound. -/
def Collects (free : StateM Tally (List String)) (names : Set String) : Prop :=
  ∀ tally : Tally, tally.Sound →
    (free.run tally).2.Sound ∧ (∀ x, (free.run tally).2.count x = tally.count x) ∧
    ∀ x, x ∈ (free.run tally).1 ↔ x ∈ names ∧ tally.count x = 0

namespace Collects
variable {free : StateM Tally (List String)} {names : Set String}

theorem mem_iff (h : Collects free names) (x : String) : x ∈ (free.run []).1 ↔ x ∈ names :=
  ((h [] Tally.sound_nil).2.2 x).trans (and_iff_left rfl)

theorem self (h : Collects free names) : Collects free {x | x ∈ (free.run []).1} := by
  have hnames : {x | x ∈ (free.run []).1} = names := Set.ext h.mem_iff
  rwa [hnames]

theorem nothing : Collects (return []) ∅ := fun _ h =>
  ⟨h, fun _ => rfl, fun _ => ⟨fun hx => absurd hx List.not_mem_nil, fun hx => hx.1.elim⟩⟩

theorem single (x : String) : Collects (freeNamesUnder.var x) {x} := by
  intro tally h
  refine ⟨h, fun _ => rfl, fun y => ?_⟩
  change y ∈ (if tally.binds x then [] else [x]) ↔ y = x ∧ tally.count y = 0
  split
  next hbinds =>
    have hcount : tally.count x ≠ 0 := fun h0 => by
      simp [(Tally.binds_eq_false_iff h).2 h0] at hbinds
    simp only [List.not_mem_nil, false_iff, not_and]
    rintro rfl
    exact hcount
  next hbinds =>
    have hcount := (Tally.binds_eq_false_iff h).1 (Bool.of_not_eq_true hbinds)
    simp only [List.mem_singleton, iff_self_and]
    rintro rfl
    exact hcount

theorem under (ps : List String) (h : Collects free names) :
    Collects (under ps free) {x | x ∈ names ∧ x ∉ ps} := by
  intro tally htally
  obtain ⟨hraised, hraise⟩ := Tally.raise_all ps htally
  obtain ⟨hsound, hcount, hmem⟩ := h _ hraised
  obtain ⟨hlowered, hlower⟩ := Tally.lower_all ps hsound
  refine ⟨hlowered, fun x => ?_, fun x => ?_⟩
  · refine (hlower x).trans ?_
    rw [hcount, hraise]
    omega
  · refine (hmem x).trans ?_
    rw [hraise, Nat.add_eq_zero_iff, List.count_eq_zero]
    exact ⟨fun ⟨hx, h0, hps⟩ => ⟨⟨hx, hps⟩, h0⟩, fun ⟨⟨hx, hps⟩, h0⟩ => ⟨hx, h0, hps⟩⟩

theorem union_cons {frees : List (StateM Tally (List String))} {more : Set String}
    (h : Collects free names) (hs : Collects (union frees) more) :
    Collects (union (free :: frees)) (names ∪ more) := by
  intro tally htally
  obtain ⟨hsound, hcount, hmem⟩ := h tally htally
  obtain ⟨hsound', hcount', hmem'⟩ := hs _ hsound
  refine ⟨hsound', fun x => (hcount' x).trans (hcount x), fun x => ?_⟩
  change x ∈ unite (free.run tally).1 ((Term.union frees).run (free.run tally).2).1 ↔ _
  rw [unite, List.mem_append, List.mem_filter, hmem', hcount, Set.mem_union, or_and_right]
  by_cases hx : x ∈ (free.run tally).1
  · simp [hx, (hmem x).1 hx]
  · have hfree := mt (hmem x).2 hx
    simp [hx, hfree]

theorem union {α : Type} {xs : List α} (f : α → StateM Tally (List String)) (names : α → Set String)
    (h : ∀ x ∈ xs, Collects (f x) (names x)) :
    Collects (union (xs.map f)) {y | ∃ x ∈ xs, y ∈ names x} := by
  induction xs with
  | nil =>
    have hempty : {y | ∃ x ∈ ([] : List α), y ∈ names x} = ∅ := by simp
    rw [hempty]
    exact nothing
  | cons x xs ih =>
    obtain ⟨hx, hxs⟩ := List.forall_mem_cons.1 h
    have hcons : {y | ∃ z ∈ x :: xs, y ∈ names z} = names x ∪ {y | ∃ z ∈ xs, y ∈ names z} := by
      ext y
      simp
    rw [hcons]
    exact hx.union_cons (ih hxs)

end Collects

def freeUnder (hidden : List String) : Algebra (StateM Tally (List String)) :=
  { freeNamesUnder with record := fun cs => under hidden (union (fieldBodies cs)) }

def namesHiding (hidden : List String) (t : Term) : List String :=
  ((t.fold (freeUnder hidden)).run []).1

/-- The names that a term must find where it is placed: a record brings the name of itself along. -/
def neededNames : Term → List String := namesHiding [Church.selfName]

theorem freeNames_eq (t : Term) : t.freeNames = t.namesHiding [] := rfl

theorem forall_mem_fieldBodies {α : Type} {cs : List (Constructor α)} {p : α → Prop} :
    (∀ t ∈ fieldBodies cs, p t) ↔ ∀ c ∈ cs, ∀ x ∈ c.fields, p x.body := by
  simp only [fieldBodies, List.forall_mem_flatMap, List.forall_mem_map]

abbrev Known (hidden : List String) (t : Term) : Prop :=
  Collects (t.fold (freeUnder hidden)) {x | x ∈ t.namesHiding hidden}

section
variable {hidden : List String} {x : String}

theorem collects_terms {ts : List Term} (h : ∀ t ∈ ts, Known hidden t) :
    Collects (union (foldAll (freeUnder hidden) ts)) {x | ∃ t ∈ ts, x ∈ t.namesHiding hidden} := by
  rw [foldAll_eq]
  exact .union _ _ h

theorem collects_record {cs : List (Constructor Term)} (h : ∀ t ∈ fieldBodies cs, Known hidden t) :
    Collects ((record cs).fold (freeUnder hidden))
      {x | (∃ t ∈ fieldBodies cs, x ∈ t.namesHiding hidden) ∧ x ∉ hidden} := by
  rw [fold, foldConstructors_eq]
  change Collects (Term.under hidden (union (fieldBodies (cs.map _)))) _
  rw [fieldBodies_map]
  exact (Collects.union _ _ h).under hidden

theorem collects_letIn {bs : List (Binding Term)} {b : Term} (hbs : ∀ d ∈ bs, Known hidden d.body)
    (hb : Known hidden b) : Collects ((letIn bs b).fold (freeUnder hidden))
      {x | (x ∈ b.namesHiding hidden ∨ ∃ d ∈ bs, x ∈ d.body.namesHiding hidden ∧ x ∉ d.params) ∧
        x ∉ bs.map (·.name)} := by
  have hbodies :
      Collects (union (bs.map fun d => Term.under d.params (d.body.fold (freeUnder hidden))))
      {x | ∃ d ∈ bs, x ∈ d.body.namesHiding hidden ∧ x ∉ d.params} :=
    .union _ _ fun d hd => (hbs d hd).under d.params
  rw [fold, foldBindings_eq]
  change Collects (Term.under ((bs.map _).map _) (union (_ :: (bs.map _).map _))) _
  rw [List.map_map, List.map_map]
  exact (hb.union_cons hbodies).under (bs.map (·.name))

theorem known (t : Term) : Known hidden t := by
  induction t using Term.induction with
  | abs ps b ih => exact (ih.under ps).self
  | app ts ih => exact (collects_terms ih).self
  | list ts ih => exact (collects_terms ih).self
  | tuple ts ih => exact (collects_terms ih).self
  | var x => exact (Collects.single x).self
  | record cs ih => exact (collects_record (forall_mem_fieldBodies.2 ih)).self
  | letIn bs b ihs ih => exact (collects_letIn ihs ih).self
  | _ => exact Collects.nothing.self

@[simp] theorem mem_namesHiding_abs {ps : List String} {b : Term} :
    x ∈ (abs ps b).namesHiding hidden ↔ x ∈ b.namesHiding hidden ∧ x ∉ ps :=
  ((known b).under ps).mem_iff x

@[simp] theorem mem_namesHiding_app {ts : List Term} :
    x ∈ (app ts).namesHiding hidden ↔ ∃ t ∈ ts, x ∈ t.namesHiding hidden :=
  (collects_terms fun t _ => known t).mem_iff x

@[simp] theorem mem_namesHiding_list {ts : List Term} :
    x ∈ (list ts).namesHiding hidden ↔ ∃ t ∈ ts, x ∈ t.namesHiding hidden :=
  (collects_terms fun t _ => known t).mem_iff x

@[simp] theorem mem_namesHiding_tuple {ts : List Term} :
    x ∈ (tuple ts).namesHiding hidden ↔ ∃ t ∈ ts, x ∈ t.namesHiding hidden :=
  (collects_terms fun t _ => known t).mem_iff x

@[simp] theorem mem_namesHiding_var {y : String} : x ∈ (var y).namesHiding hidden ↔ x = y :=
  (Collects.single y).mem_iff x

@[simp] theorem mem_namesHiding_record {cs : List (Constructor Term)} :
    x ∈ (record cs).namesHiding hidden ↔
    (∃ t ∈ fieldBodies cs, x ∈ t.namesHiding hidden) ∧ x ∉ hidden :=
  (collects_record fun t _ => known t).mem_iff x

@[simp] theorem mem_namesHiding_letIn {bs : List (Binding Term)} {b : Term} :
    x ∈ (letIn bs b).namesHiding hidden ↔
    (x ∈ b.namesHiding hidden ∨ ∃ d ∈ bs, x ∈ d.body.namesHiding hidden ∧ x ∉ d.params) ∧
    x ∉ bs.map (·.name) :=
  (collects_letIn (fun d _ => known d.body) (known b)).mem_iff x

/-- The more is hidden, the less is found, and only the hidden names make a difference. -/
theorem mem_namesHiding_mono {hidden' : List String} (hx : x ∈ hidden' → x ∈ hidden) {t : Term}
    (h : x ∈ t.namesHiding hidden) : x ∈ t.namesHiding hidden' := by
  induction t using Term.induction with
  | abs ps b ih =>
    rw [mem_namesHiding_abs] at h ⊢
    exact h.imp_left ih
  | app ts ih =>
    obtain ⟨t, ht, h⟩ := mem_namesHiding_app.1 h
    exact mem_namesHiding_app.2 ⟨t, ht, ih t ht h⟩
  | list ts ih =>
    obtain ⟨t, ht, h⟩ := mem_namesHiding_list.1 h
    exact mem_namesHiding_list.2 ⟨t, ht, ih t ht h⟩
  | tuple ts ih =>
    obtain ⟨t, ht, h⟩ := mem_namesHiding_tuple.1 h
    exact mem_namesHiding_tuple.2 ⟨t, ht, ih t ht h⟩
  | record cs ih =>
    obtain ⟨⟨t, ht, h⟩, hfree⟩ := mem_namesHiding_record.1 h
    have ih' : ∀ t ∈ fieldBodies cs, x ∈ t.namesHiding hidden → x ∈ t.namesHiding hidden' :=
      forall_mem_fieldBodies.2 ih
    exact mem_namesHiding_record.2 ⟨⟨t, ht, ih' t ht h⟩, mt hx hfree⟩
  | letIn bs b ihs ih =>
    rw [mem_namesHiding_letIn] at h ⊢
    exact h.imp_left (Or.imp ih fun ⟨d, hd, h⟩ => ⟨d, hd, h.imp_left (ihs d hd)⟩)
  | _ => exact h

theorem mem_freeNames_of_mem_namesHiding {t : Term} (h : x ∈ t.namesHiding hidden) :
    x ∈ t.freeNames :=
  mem_namesHiding_mono (fun hnil => absurd hnil List.not_mem_nil) h

theorem mem_namesHiding_of_mem_freeNames {t : Term} (hx : x ∉ hidden) (h : x ∈ t.freeNames) :
    x ∈ t.namesHiding hidden :=
  mem_namesHiding_mono (fun hhidden => absurd hhidden hx) (freeNames_eq t ▸ h)

end

end SugaredLambda.Term
