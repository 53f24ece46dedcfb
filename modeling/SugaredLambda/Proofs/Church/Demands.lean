import Mathlib.Data.Set.Basic
import SugaredLambda.Proofs.Church.RoundTrip

/-! The names that a term asks of its scope: placing it fails just when one of them is missing, and
depends on the scope at these names only (`asks_place`). -/
namespace SugaredLambda

def without (names hidden : List String) : List String := names.filter (!hidden.contains ·)

@[simp] theorem mem_without {names hidden : List String} {x : String} :
    x ∈ without names hidden ↔ x ∈ names ∧ x ∉ hidden := by
  simp [without, List.mem_filter]

theorem count_without (names hidden : List String) (x : String) :
    (without names hidden).count x = if x ∈ hidden then 0 else names.count x := by
  by_cases h : x ∈ hidden
  · rw [if_pos h, List.count_eq_zero, mem_without]
    exact fun hx => hx.2 h
  · rw [if_neg h, without, List.count_filter (by simpa using h)]

namespace Term

/-- A definition of a block is bound in the later ones and in the body, not in itself. -/
def demands : Algebra (List String) where
  abs ps b := without b ps
  app := List.flatten
  var x := [x]
  nat _ := []
  list := List.flatten
  tuple := List.flatten
  char _ := []
  str _ := []
  word _ := []
  record cs := without (fieldBodies cs).flatten [Church.selfName]
  letIn bs b := bs.foldr (fun d rest => without d.body d.params ++ without rest [d.name]) b

def demanded : Term → List String := fold demands

theorem demanded_var (x : String) : (var x).demanded = [x] := rfl

theorem demanded_nat (n : Nat) : (nat n).demanded = [] := rfl

theorem demanded_abs (ps : List String) (b : Term) : (abs ps b).demanded = without b.demanded ps :=
  rfl

theorem demanded_app (ts : List Term) : (app ts).demanded = ts.flatMap demanded :=
  congrArg List.flatten (foldAll_eq demands ts)

theorem demanded_list (ts : List Term) : (list ts).demanded = ts.flatMap demanded :=
  congrArg List.flatten (foldAll_eq demands ts)

theorem demanded_tuple (ts : List Term) : (tuple ts).demanded = ts.flatMap demanded :=
  congrArg List.flatten (foldAll_eq demands ts)

theorem demanded_record (cs : List (Constructor Term)) :
    (record cs).demanded = without ((fieldBodies cs).flatMap demanded) [Church.selfName] := by
  have h : (record cs).demanded =
      without (fieldBodies (cs.map (Constructor.map demanded))).flatten [Church.selfName] :=
    congrArg (fun ds => without (fieldBodies ds).flatten [Church.selfName])
      (foldConstructors_eq demands cs)
  rw [h, fieldBodies_map, List.flatMap]

theorem demanded_letIn_nil (b : Term) : (letIn [] b).demanded = b.demanded := rfl

theorem demanded_letIn_cons (d : Binding Term) (bs : List (Binding Term)) (b : Term) :
    (letIn (d :: bs) b).demanded =
      without d.body.demanded d.params ++ without (letIn bs b).demanded [d.name] := rfl

end Term

namespace Church
variable {scope scope' : Scope} {depth : Int}

theorem mem_of_lookup {α : Type} {entries : List (String × α)} {x : String} {v : α}
    (h : entries.lookup x = some v) : (x, v) ∈ entries := by
  obtain ⟨before, after, hentries, -⟩ := List.lookup_eq_some_iff.1 h
  exact hentries ▸ List.mem_append_right _ List.mem_cons_self

theorem lookup_enter_of_not_mem {ps : List String} {x : String} (h : x ∉ ps) (scope : Scope)
    (depth : Int) : (enter ps scope depth).lookup x = scope.lookup x := by
  induction ps generalizing scope depth with
  | nil => rfl
  | cons p ps ih =>
    rw [List.mem_cons, not_or] at h
    rw [enter, ih h.2, List.lookup_cons, beq_false_of_ne h.1]

theorem lookup_enter_of_mem {ps : List String} {x : String} (h : x ∈ ps) (scope scope' : Scope)
    (depth : Int) :
    (enter ps scope depth).lookup x = (enter ps scope' depth).lookup x ∧
    (enter ps scope depth).lookup x ≠ none := by
  induction ps generalizing scope scope' depth with
  | nil => exact absurd h List.not_mem_nil
  | cons p ps ih =>
    by_cases hps : x ∈ ps
    · exact ih hps _ _ _
    · obtain rfl : x = p := (List.mem_cons.1 h).resolve_right hps
      rw [enter, enter, lookup_enter_of_not_mem hps, lookup_enter_of_not_mem hps]
      simp

theorem Agree.enter_without {names ps : List String} (h : Agree (without names ps) scope scope')
    (depth : Int) : Agree names (Church.enter ps scope depth) (Church.enter ps scope' depth) := by
  intro x hx
  by_cases hps : x ∈ ps
  · exact (lookup_enter_of_mem hps scope scope' depth).1
  · rw [lookup_enter_of_not_mem hps, lookup_enter_of_not_mem hps]
    exact h x (mem_without.2 ⟨hx, hps⟩)

/-- The names of a list that a scope does not know. -/
def missing (names : List String) (scope : Scope) : Set String :=
  {x | x ∈ names ∧ scope.lookup x = none}

theorem missing_enter (names ps : List String) (scope : Scope) (depth : Int) :
    missing names (enter ps scope depth) = missing (without names ps) scope := by
  ext x
  change x ∈ names ∧ _ ↔ x ∈ without names ps ∧ _
  rw [mem_without]
  by_cases hps : x ∈ ps
  · simp [hps, (lookup_enter_of_mem hps scope scope depth).2]
  · simp [hps, lookup_enter_of_not_mem hps]

theorem missing_append (xs ys : List String) (scope : Scope) :
    missing (xs ++ ys) scope = missing xs scope ∪ missing ys scope := by
  ext x
  simp [missing, or_and_right]

theorem missing_flatMap {α : Type} (xs : List α) (names : α → List String) (scope : Scope) :
    missing (xs.flatMap names) scope = {y | ∃ x ∈ xs, y ∈ missing (names x) scope} := by
  ext y
  simp only [missing, List.mem_flatMap, Set.mem_ofPred_eq]
  exact ⟨fun ⟨⟨x, hx, hy⟩, hnone⟩ => ⟨x, hx, hy, hnone⟩,
    fun ⟨x, hx, hy, hnone⟩ => ⟨⟨x, hx, hy⟩, hnone⟩⟩

/-- Fails just when some name is missing, and by a name that is. -/
inductive Answers {α : Type} (lost : Set String) : Except Error α → Prop
  | found (v : α) (known : ∀ x, x ∉ lost) : Answers lost (.ok v)
  | unbound (x : String) (mem : x ∈ lost) : Answers lost (.error (.unbound x))

namespace Answers
variable {α β : Type} {lost more : Set String} {r : Except Error α}

theorem bind {f : α → Except Error β} (hr : Answers lost r)
    (hf : ∀ v, r = .ok v → Answers more (f v)) : Answers (lost ∪ more) (r >>= f) := by
  cases hr with
  | found v known =>
    have hv := hf v rfl
    change Answers _ (f v)
    generalize f v = s at hv
    cases hv with
    | found w known' => exact .found w fun x hx => hx.elim (known x) (known' x)
    | unbound x mem => exact .unbound x (.inr mem)
  | unbound x mem => exact .unbound x (.inl mem)

theorem map (hr : Answers lost r) (f : α → β) : Answers lost (f <$> r) := by
  cases hr with
  | found v known => exact .found (f v) known
  | unbound x mem => exact .unbound x mem

theorem mapM {xs : List α} {f : α → Except Error β} {lost : α → Set String}
    (h : ∀ x ∈ xs, Answers (lost x) (f x)) : Answers {y | ∃ x ∈ xs, y ∈ lost x} (xs.mapM f) := by
  induction xs with
  | nil => exact .found [] (by simp)
  | cons x xs ih =>
    obtain ⟨hx, hxs⟩ := List.forall_mem_cons.1 h
    have hcons : {y | ∃ z ∈ x :: xs, y ∈ lost z} = lost x ∪ {y | ∃ z ∈ xs, y ∈ lost z} := by
      ext y
      simp
    rw [hcons, List.mapM_cons]
    exact hx.bind fun v _ => (ih hxs).map (v :: ·)

theorem mem_of_unbound (hr : Answers lost r) {x : String} (h : r = .error (.unbound x)) :
    x ∈ lost := by
  cases hr with
  | found v known => cases h
  | unbound y mem =>
    obtain rfl := Error.unbound.inj (Except.error.inj h)
    exact mem

theorem exists_unbound (hr : Answers lost r) {x : String} (hx : x ∈ lost) :
    ∃ y, r = .error (.unbound y) := by
  cases hr with
  | found v known => exact absurd hx (known x)
  | unbound y mem => exact ⟨y, rfl⟩

theorem exists_ok (hr : Answers lost r) (h : ∀ x, x ∉ lost) : ∃ v, r = .ok v := by
  cases hr with
  | found v known => exact ⟨v, rfl⟩
  | unbound x mem => exact absurd mem (h x)

end Answers

/-- Some names are all that is asked of the scope: without one of them there is no result, and the
result depends on them only. -/
structure Asks (names : List String) (p : Placing) : Prop where
  answers : ∀ scope depth, Answers (missing names scope) (p scope depth)
  dependsOn : DependsOn names p

namespace Asks
variable {names : List String} {p : Placing}

theorem function (ps : List String) (hp : Asks names p) :
    Asks (without names ps) (function ps p) where
  answers scope depth := by
    rw [← missing_enter names ps scope depth]
    exact (hp.answers _ _).map _
  dependsOn := fun _ _ depth h => by
    simp only [Church.function, hp.dependsOn _ _ _ (h.enter_without depth)]

theorem reference (x : String) : Asks [x] (reference x) where
  answers scope depth := by
    rw [Church.reference]
    split
    next binder h =>
      refine .found _ fun y hy => ?_
      obtain rfl := List.mem_singleton.1 hy.1
      exact absurd (h.symm.trans hy.2) (Option.some_ne_none _)
    next h => exact .unbound x ⟨List.mem_singleton_self x, h⟩
  dependsOn := fun _ _ _ h => by simp only [Church.reference, h x List.mem_cons_self]

theorem constant (l : Lambda) : Asks [] fun _ _ => .ok l :=
  ⟨fun _ _ => .found l fun _ hx => absurd hx.1 List.not_mem_nil, fun _ _ _ _ => rfl⟩

section
variable {α : Type} {xs : List α} {q : α → Placing} {asked : α → List String}

theorem answers_mapM (h : ∀ x ∈ xs, Asks (asked x) (q x)) (scope : Scope) (depth : Int) :
    Answers (missing (xs.flatMap asked) scope) (xs.mapM (q · scope depth)) := by
  rw [missing_flatMap]
  exact .mapM fun x hx => (h x hx).answers scope depth

theorem mapM_congr (h : ∀ x ∈ xs, Asks (asked x) (q x))
    (hscope : Agree (xs.flatMap asked) scope scope') :
    xs.mapM (q · scope depth) = xs.mapM (q · scope' depth) :=
  mapM_congr_left fun x hx => (h x hx).dependsOn _ _ _
    (hscope.mono fun _ => List.mem_flatMap_of_mem hx)

theorem several (h : ∀ x ∈ xs, Asks (asked x) (q x)) (k : Int) (f : List Lambda → Lambda) :
    Asks (xs.flatMap asked) fun scope depth => f <$> xs.mapM (q · scope (depth + k)) where
  answers scope depth := (answers_mapM h scope (depth + k)).map f
  dependsOn := fun _ _ _ hscope => congrArg (f <$> ·) (mapM_congr h hscope)

theorem application (h : ∀ x ∈ xs, Asks (asked x) (q x)) (hne : xs ≠ []) :
    Asks (xs.flatMap asked) (application (xs.map q)) := by
  cases xs with
  | nil => exact absurd rfl hne
  | cons x xs =>
    obtain ⟨hx, hxs⟩ := List.forall_mem_cons.1 h
    have heq (scope : Scope) (depth : Int) : Church.application ((x :: xs).map q) scope depth =
        q x scope depth >>= fun f => f.apply <$> xs.mapM (q · scope depth) := by
      rw [List.map_cons, Church.application, List.mapM_map]
      rfl
    refine ⟨fun scope depth => ?_, fun scope scope' depth hscope => ?_⟩
    · rw [heq, List.flatMap_cons, missing_append]
      exact (hx.answers scope depth).bind fun v _ => (answers_mapM hxs scope depth).map _
    · rw [heq, heq, hx.dependsOn _ _ _ (hscope.mono (List.subset_append_left _ _)),
        mapM_congr hxs (hscope.mono (List.subset_append_right _ _))]

end

theorem block {bs : List (Binding Term)} {b : Term}
    (hbs : ∀ d ∈ bs, Asks d.body.demanded (place d.body)) (hb : Asks b.demanded (place b)) :
    Asks (Term.letIn bs b).demanded (place (.letIn bs b)) := by
  rw [place_letIn]
  induction bs with
  | nil => exact hb
  | cons d bs ih =>
    obtain ⟨hd, hbs⟩ := List.forall_mem_cons.1 hbs
    have hvalue := hd.function d.params
    have hrest := ih hbs
    have heq (scope : Scope) (depth : Int) :
        Church.block ((d :: bs).map (Binding.map place)) (place b) scope depth =
        Church.function d.params (place d.body) scope depth >>=
          fun v => (fun r => .app (.abs r) v) <$>
          Church.block (bs.map (Binding.map place)) (place b)
            (enter [d.name] scope depth) (depth + 1) := rfl
    rw [Term.demanded_letIn_cons]
    refine ⟨fun scope depth => ?_, fun scope scope' depth hscope => ?_⟩
    · rw [heq, missing_append, ← missing_enter _ [d.name] scope depth]
      exact (hvalue.answers scope depth).bind fun v _ => (hrest.answers _ (depth + 1)).map _
    · have hinner := (hscope.mono (List.subset_append_right _ _)).enter_without depth
      rw [heq, heq, hvalue.dependsOn _ _ _ (hscope.mono (List.subset_append_left _ _)),
        hrest.dependsOn _ _ _ hinner]

end Asks

theorem constructor_map (c : Constructor Term) (scope : Scope) (depth : Int) :
    constructor scope depth (c.map place) =
      (fun fields => consumed [string c.name, foldList fields]) <$>
        c.fields.mapM fun x => field scope depth (x.map place) :=
  congrArg ((fun fields => consumed [string c.name, foldList fields]) <$> ·)
    (List.mapM_map (m := Except Error))

theorem place_record_eq (cs : List (Constructor Term)) (scope : Scope) (depth : Int) :
    place (.record cs) scope depth =
    (fun ctors => consumed [foldList ctors]) <$> cs.mapM fun c =>
      constructor scope depth (c.map place) := by
  rw [place_record]
  exact congrArg ((fun ctors => consumed [foldList ctors]) <$> ·)
    (List.mapM_map (m := Except Error))

theorem Asks.answers_field {x : Field Term} (h : Asks x.body.demanded (place x.body))
    (scope : Scope) (depth : Int) :
    Answers (missing (without x.body.demanded [selfName]) scope)
      (field scope depth (x.map place)) := by
  rw [← missing_enter _ [selfName] scope (depth + 7)]
  exact (h.answers _ (depth + 8)).map _

theorem mem_demanded_record {cs : List (Constructor Term)} {y : String} :
    y ∈ (Term.record cs).demanded ↔
    ∃ c ∈ cs, ∃ x ∈ c.fields, y ∈ without x.body.demanded [selfName] := by
  rw [Term.demanded_record]
  simp only [mem_without, fieldBodies, List.mem_flatMap, List.mem_map]
  constructor
  · rintro ⟨⟨t, ⟨c, hc, x, hx, rfl⟩, hy⟩, hself⟩
    exact ⟨c, hc, x, hx, hy, hself⟩
  · rintro ⟨c, hc, x, hx, hy, hself⟩
    exact ⟨⟨x.body, ⟨c, hc, x, hx, rfl⟩, hy⟩, hself⟩

theorem Asks.record {cs : List (Constructor Term)}
    (h : ∀ c ∈ cs, ∀ x ∈ c.fields, Asks x.body.demanded (place x.body)) :
    Asks (Term.record cs).demanded (place (.record cs)) where
  answers scope depth := by
    have hctor : ∀ c ∈ cs,
        Answers {y | ∃ x ∈ c.fields, y ∈ missing (without x.body.demanded [selfName]) scope}
        (constructor scope depth (c.map place)) := fun c hc => by
      rw [constructor_map]
      exact (Answers.mapM fun x hx => (h c hc x hx).answers_field scope depth).map _
    have hnames : missing (Term.record cs).demanded scope =
        {y | ∃ c ∈ cs, y ∈ {y | ∃ x ∈ c.fields,
          y ∈ missing (without x.body.demanded [selfName]) scope}} := by
      ext y
      refine (and_congr_left' mem_demanded_record).trans ?_
      exact ⟨fun ⟨⟨c, hc, x, hx, hy⟩, hnone⟩ => ⟨c, hc, x, hx, hy, hnone⟩,
        fun ⟨c, hc, x, hx, hy, hnone⟩ => ⟨⟨c, hc, x, hx, hy⟩, hnone⟩⟩
    rw [place_record_eq, hnames]
    exact (Answers.mapM hctor).map _
  dependsOn := by
    intro scope scope' depth hscope
    have hfield : ∀ c ∈ cs, ∀ x ∈ c.fields, field scope depth (x.map place) =
        field scope' depth (x.map place) :=
      fun c hc x hx => by
        have hinner : Agree x.body.demanded (enter [selfName] scope (depth + 7))
            (enter [selfName] scope' (depth + 7)) :=
          (hscope.mono fun y hy => mem_demanded_record.2 ⟨c, hc, x, hx,
            hy⟩).enter_without (depth + 7)
        exact congrArg ((fun body => consumed [string x.name, thunk body]) <$> ·)
          ((h c hc x hx).dependsOn _ _ (depth + 8) hinner)
    have hctor :
        ∀ c ∈ cs, constructor scope depth (c.map place) = constructor scope' depth (c.map place) :=
      fun c hc => by rw [constructor_map, constructor_map, mapM_congr_left (hfield c hc)]
    rw [place_record_eq, place_record_eq, mapM_congr_left hctor]

theorem asks_place {t : Term} (h : t.hasEmptyApplication = false) : Asks t.demanded (place t) := by
  induction t using Term.induction with
  | abs ps b ih => exact (ih h).function ps
  | app ts ih =>
    rw [Term.hasEmptyApplication_app, Bool.or_eq_false_iff, List.any_eq_false] at h
    rw [place_app, Term.demanded_app]
    exact .application (fun t ht => ih t ht (Bool.of_not_eq_true (h.2 t ht)))
      (List.isEmpty_eq_false_iff.1 h.1)
  | var x => exact .reference x
  | nat n => exact .constant _
  | list ts ih =>
    rw [Term.hasEmptyApplication_list, List.any_eq_false] at h
    have hts := Asks.several (fun t ht => ih t ht (Bool.of_not_eq_true (h t ht))) 2 foldList
    rw [Term.demanded_list]
    exact (funext₂ (place_list ts)).symm ▸ hts
  | tuple ts ih =>
    rw [Term.hasEmptyApplication_tuple, List.any_eq_false] at h
    have hts := Asks.several (fun t ht => ih t ht (Bool.of_not_eq_true (h t ht))) 1 consumed
    rw [Term.demanded_tuple]
    exact (funext₂ (place_tuple ts)).symm ▸ hts
  | char s => exact .constant _
  | str s => exact .constant _
  | word n => exact .constant _
  | record cs ih =>
    rw [Term.hasEmptyApplication_record, List.any_eq_false] at h
    exact .record fun c hc x hx => ih c hc x hx (Bool.of_not_eq_true
      (h x.body (List.mem_flatMap_of_mem hc (List.mem_map_of_mem hx))))
  | letIn bs b ihs ih =>
    rw [Term.hasEmptyApplication_letIn, Bool.or_eq_false_iff, List.any_eq_false] at h
    exact .block (fun d hd => ihs d hd (Bool.of_not_eq_true (h.1 d hd))) (ih h.2)

end Church
end SugaredLambda
