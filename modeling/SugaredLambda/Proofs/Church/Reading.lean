import SugaredLambda.Church.Decoding
import SugaredLambda.Proofs.Church.Recognition
import SugaredLambda.Proofs.Lambda.Occurrences

/-! The loop leaves the reading of a term (`loop_visit`), with counts that cover the names in it
(`sound_reading`). -/
namespace SugaredLambda.Church

namespace Uses

/-- Each name is counted in one place. -/
def Proper (uses : Uses) : Prop := (uses.map (·.1)).Nodup

theorem count_cons (x : String) (n : Nat) (uses : Uses) (y : String) :
    count ((x, n) :: uses) y = if y = x then n else uses.count y := by
  by_cases h : y = x
  · simp [count, h]
  · simp [count, List.lookup_cons, beq_false_of_ne h, h]

theorem count_eq_zero {uses : Uses} {x : String} (h : x ∉ uses.map (·.1)) : uses.count x = 0 := by
  induction uses with
  | nil => rfl
  | cons e rest ih =>
    simp only [List.map_cons, List.mem_cons, not_or] at h
    rw [count_cons, if_neg h.1, ih h.2]

theorem count_add (x : String) (n : Nat) (uses : Uses) (y : String) :
    (uses.add x n).count y = uses.count y + if y = x then n else 0 := by
  induction uses with
  | nil => rw [add, count_cons]; by_cases h : y = x <;> simp [h, count]
  | cons e rest ih =>
    rw [add]
    by_cases hx : x = e.1
    · rw [if_pos hx, count_cons, count_cons]; grind
    · rw [if_neg hx, count_cons, count_cons, ih]; grind

theorem mem_keys_add {x y : String} {n : Nat} {uses : Uses} :
    y ∈ (uses.add x n).map (·.1) ↔ y = x ∨ y ∈ uses.map (·.1) := by
  induction uses with
  | nil => simp [add]
  | cons e rest ih =>
    rw [add]
    by_cases hx : x = e.1
    · simp [hx]
    · simp only [if_neg hx, List.map_cons, List.mem_cons, ih]; grind

theorem Proper.add {uses : Uses} (h : uses.Proper) (x : String) (n : Nat) :
    (uses.add x n).Proper := by
  induction uses with
  | nil => simp [Proper, Uses.add]
  | cons e rest ih =>
    obtain ⟨he, hrest⟩ := List.nodup_cons.1 h
    rw [Uses.add]
    by_cases hx : x = e.1
    · rw [if_pos hx]; exact h
    · rw [if_neg hx]
      refine List.nodup_cons.2 ⟨fun hmem => ?_, ih hrest⟩
      cases mem_keys_add.1 hmem with
      | inl h => exact hx h.symm
      | inr h => exact he h

theorem Proper.addAll {uses : Uses} (h : uses.Proper) (more : Uses) :
    (uses.addAll more).Proper := by
  induction more generalizing uses with
  | nil => exact h
  | cons e more ih => exact ih (h.add e.1 e.2)

theorem count_addAll (uses : Uses) {more : Uses} (h : more.Proper) (y : String) :
    (uses.addAll more).count y = uses.count y + more.count y := by
  induction more generalizing uses with
  | nil => rfl
  | cons e more ih =>
    obtain ⟨he, hmore⟩ := List.nodup_cons.1 h
    have hm : (uses.addAll (e :: more)).count y = (uses.add e.1 e.2).count y + count more y :=
      ih (uses.add e.1 e.2) hmore
    rw [hm, count_add, count_cons]
    by_cases hy : y = e.1
    · have hz : count more y = 0 := count_eq_zero (hy ▸ he)
      rw [if_pos hy, if_pos hy, hz, Nat.add_zero]
    · rw [if_neg hy, if_neg hy, Nat.add_zero]

theorem Proper.merge {uses more : Uses} (h : uses.Proper) (hm : more.Proper) :
    (uses.merge more).Proper := by
  rw [Uses.merge]
  split
  · exact hm.addAll uses
  · exact h.addAll more

theorem count_merge {uses more : Uses} (h : uses.Proper) (hm : more.Proper) (y : String) :
    (uses.merge more).count y = uses.count y + more.count y := by
  rw [merge]
  split
  · rw [count_addAll more h, Nat.add_comm]
  · exact count_addAll uses hm y

theorem foldl_merge (uses : Uses) (parts : List Reading) (h : uses.Proper)
    (hp : ∀ p ∈ parts, p.2.Proper) :
    (parts.foldl (fun uses part => uses.merge part.2) uses).Proper ∧
    ∀ y, (parts.foldl (fun uses part => uses.merge part.2) uses).count y =
      uses.count y + (parts.map (·.2.count y)).sum := by
  induction parts generalizing uses with
  | nil => exact ⟨h, fun y => rfl⟩
  | cons p parts ih =>
    obtain ⟨hpp, hparts⟩ := List.forall_mem_cons.1 hp
    obtain ⟨hproper, hcount⟩ := ih (uses.merge p.2) (h.merge hpp) hparts
    refine ⟨hproper, fun y => ?_⟩
    rw [List.foldl_cons, hcount, count_merge h hpp, List.map_cons, List.sum_cons, Nat.add_assoc]

theorem proper_total {parts : List Reading} (hp : ∀ p ∈ parts, p.2.Proper) : (total parts).Proper :=
  (foldl_merge [] parts List.nodup_nil hp).1

theorem count_total {parts : List Reading} (hp : ∀ p ∈ parts, p.2.Proper) (y : String) :
    (total parts).count y = (parts.map (·.2.count y)).sum := by
  rw [total, (foldl_merge [] parts List.nodup_nil hp).2]
  exact Nat.zero_add _

end Uses

def applied : List Reading → Reading
  | [one] => one
  | parts => gathered parts

/-- The readings of the head and of the arguments of a term, in front of those of more arguments. -/
def parts (depth : Nat) : Lambda → List Reading → List Reading
  | .var i, args => named depth i :: args
  | .abs b, args => abstracted depth (applied (parts (depth + 1) b [])) :: args
  | .app f a, args => parts depth f (applied (parts depth a []) :: args)

def reading (depth : Nat) (t : Lambda) : Reading := applied (parts depth t [])

theorem parts_apply (depth : Nat) (t : Lambda) (args : List Lambda) (rest : List Reading) :
    parts depth (t.apply args) rest = parts depth t (args.map (reading depth) ++ rest) := by
  induction args generalizing t with
  | nil => rfl
  | cons a args ih => exact ih (.app t a)

theorem reading_var (depth : Nat) (i : Int) :
    reading depth (.var i) = (.var (variableName i depth), [(variableName i depth, 1)]) := rfl

theorem reading_abs (depth : Nat) (b : Lambda) :
    reading depth (.abs b) = abstracted depth (reading (depth + 1) b) := rfl

theorem reading_apply (depth : Nat) {head : Lambda} {args : List Lambda}
    (hh : ∀ f a, head ≠ .app f a) (hargs : args ≠ []) :
    reading depth (head.apply args) = (.app ((head :: args).map fun t => (reading depth t).1),
      Uses.total ((head :: args).map (reading depth))) := by
  have hhead : ∀ rest, parts depth head rest = reading depth head :: rest := by
    intro rest
    cases head with
    | app f a => exact absurd rfl (hh f a)
    | _ => rfl
  have hne : args.map (reading depth) ≠ [] := by simpa using hargs
  obtain ⟨p, ps, hps⟩ := List.exists_cons_of_ne_nil hne
  rw [reading, parts_apply, List.append_nil, hhead, hps, applied]
  · rw [← hps, ← List.map_cons, gathered, List.map_map]
    rfl
  · simp

theorem loop_visits {depth : Nat} {ts : List Lambda} (h : ∀ t ∈ ts, ∀ todo done,
    loop (.visit t depth :: todo) done = loop todo (reading depth t :: done)) (todo : List Work)
    (done : List Reading) :
    loop (Work.visits depth ts ++ todo) done =
      loop todo ((ts.map (reading depth)).reverse ++ done) := by
  induction ts generalizing done with
  | nil => rfl
  | cons t ts ih =>
    obtain ⟨ht, hts⟩ := List.forall_mem_cons.1 h
    rw [Work.visits, List.map_cons, List.cons_append, ht, List.map_cons, List.reverse_cons,
      List.append_assoc]
    exact ih hts (reading depth t :: done)

/-- The work that a term makes ends with its reading on the stack, and with nothing else changed. -/
theorem loop_visit (depth : Nat) (t : Lambda) (todo : List Work) (done : List Reading) :
    loop (.visit t depth :: todo) done = loop todo (reading depth t :: done) := by
  induction t using Lambda.spine_induction generalizing depth todo done with
  | var i => rw [loop]; rfl
  | abs b ih => rw [loop, ih, loop, reading_abs]
  | apply head args hh hargs ihh iha =>
    obtain ⟨f, a, happ⟩ : ∃ f a, head.apply args = .app f a := by
      obtain ⟨front, a, rfl⟩ := (List.eq_nil_or_concat' args).resolve_left hargs
      exact ⟨head.apply front, a, List.foldl_append⟩
    have hall : ∀ t ∈ head :: args, ∀ todo done,
        loop (.visit t depth :: todo) done = loop todo (reading depth t :: done) :=
      List.forall_mem_cons.2 ⟨ihh depth, fun t ht => iha t ht depth⟩
    have hlength : args.length + 1 = ((head :: args).map (reading depth)).reverse.length := by simp
    have hgathered :
        gathered ((head :: args).map (reading depth)) = reading depth (head.apply args) := by
      rw [reading_apply depth hh hargs, gathered, List.map_map]
      rfl
    rw [happ, loop, ← happ]
    simp only [Lambda.spine_apply hh]
    rw [loop_visits hall, loop, List.take_left' hlength.symm, List.drop_left' hlength.symm,
      List.reverse_reverse, hgathered]

theorem decode_eq_reading (t : Lambda) : decode t = (reading 0 t).1 := by
  simp only [decode, loop_visit, loop, List.head_cons]

theorem proper_reading (depth : Nat) (t : Lambda) : (reading depth t).2.Proper := by
  induction t using Lambda.spine_induction generalizing depth with
  | var i => simp [reading_var, Uses.Proper]
  | abs b ih => exact ih (depth + 1)
  | apply head args hh hargs ihh iha =>
    rw [reading_apply depth hh hargs]
    refine Uses.proper_total fun p hp => ?_
    obtain ⟨t, ht, rfl⟩ := List.mem_map.1 hp
    cases ht with
    | head => exact ihh depth
    | tail _ ht => exact iha t ht depth

theorem count_reading_apply (depth : Nat) {head : Lambda} {args : List Lambda}
    (hh : ∀ f a, head ≠ .app f a) (hargs : args ≠ []) (x : String) :
    (reading depth (head.apply args)).2.count x =
      ((head :: args).map fun t => (reading depth t).2.count x).sum := by
  rw [reading_apply depth hh hargs, Uses.count_total, List.map_map]
  · rfl
  · intro p hp
    obtain ⟨t, -, rfl⟩ := List.mem_map.1 hp
    exact proper_reading depth t

/-- The name of a binder is counted as often as its variable stands in the term. -/
theorem count_reading (depth j : Nat) (t : Lambda) :
    (reading depth t).2.count (binderName j) = t.occurrences (depth - j - 1) := by
  induction t using Lambda.spine_induction generalizing depth with
  | var i =>
    have hiff : binderName j = variableName i depth ↔ i = depth - j - 1 := by
      rw [eq_comm, variableName_eq_binderName_iff]; omega
    rw [reading_var, Uses.count_cons, Lambda.occurrences]
    by_cases h : i = depth - j - 1
    · rw [if_pos h, if_pos (hiff.2 h)]
    · rw [if_neg h, if_neg fun hname => h (hiff.1 hname)]
      rfl
  | abs b ih =>
    have h := ih (depth + 1)
    have hindex : (depth : Int) - j - 1 + 1 = (depth + 1 : Nat) - j - 1 := by omega
    rw [Lambda.occurrences, hindex, ← h]
    rfl
  | apply head args hh hargs ihh iha =>
    rw [count_reading_apply depth hh hargs, Lambda.occurrences_apply, List.map_cons, List.sum_cons,
      ihh depth, List.map_congr_left fun t ht => iha t ht depth]

structure Sound (depth : Nat) (r : Reading) : Prop where
  plain : r.1.Plain
  covers : Covers r.2 r.1
  params : ∀ p ∈ r.1.params, ∃ j ≥ depth, p = binderName j

theorem mentioned_mergeParams (t : Term) : (mergeParams t).mentioned = t.mentioned := by
  fun_cases mergeParams t <;> rfl

theorem params_mergeParams (p : String) (b : Term) :
    (mergeParams (.abs [p] b)).params = p :: b.params := by
  cases b <;> rfl

theorem plain_mergeParams {p : String} {b : Term} (hb : b.Plain) (hp : p ∉ b.params) :
    (mergeParams (.abs [p] b)).Plain := by
  have hab : (Term.abs [p] b).Plain := .abs (by simp) hb
  cases b with
  | abs qs c =>
    cases hb with
    | abs hqs hc => exact .abs (List.nodup_cons.2 ⟨hp, hqs⟩) hc
  | _ => exact hab

theorem Sound.not_mem_params {depth : Nat} {r : Reading} (h : Sound (depth + 1) r) :
    binderName depth ∉ r.1.params := by
  intro hmem
  obtain ⟨j, hj, hname⟩ := h.params _ hmem
  rw [binderName_inj] at hname
  omega

theorem Sound.standsFor {depth : Nat} {r : Reading} (h : Sound (depth + 1) r) :
    StandsFor (abstracted depth r).1 (mergeParams (.abs [binderName depth] r.1)) := by
  refine standsFor_sugared (plain_mergeParams h.plain h.not_mem_params) fun x => ?_
  rw [mentioned_mergeParams]
  exact h.covers x

theorem Sound.abstracted {depth : Nat} {r : Reading} (h : Sound (depth + 1) r) :
    Sound depth (abstracted depth r) where
  plain := h.standsFor.plain
  covers := by
    refine Covers.of_standsFor (fun x => ?_) h.standsFor
    rw [mentioned_mergeParams]
    exact h.covers x
  params := by
    intro p hp
    have hmem := h.standsFor.params p hp
    rw [params_mergeParams] at hmem
    cases hmem with
    | head => exact ⟨depth, Nat.le_refl _, rfl⟩
    | tail _ hmem =>
      obtain ⟨j, hj, rfl⟩ := h.params p hmem
      exact ⟨j, by omega, rfl⟩

theorem sound_reading (depth : Nat) (t : Lambda) : Sound depth (reading depth t) := by
  induction t using Lambda.spine_induction generalizing depth with
  | var i =>
    refine ⟨.var _, fun x => ?_, fun p hp => absurd hp List.not_mem_nil⟩
    rw [reading_var, Uses.count_cons, Term.mentioned_var, List.count_singleton]
    grind
  | abs b ih => exact (ih (depth + 1)).abstracted
  | apply head args hh hargs ihh iha =>
    have ih : ∀ t ∈ head :: args, Sound depth (reading depth t) :=
      List.forall_mem_cons.2 ⟨ihh depth, fun t ht => iha t ht depth⟩
    refine ⟨?_, fun x => ?_, ?_⟩
    · rw [reading_apply depth hh hargs]
      refine .app (by simp) fun s hs => ?_
      obtain ⟨t, ht, rfl⟩ := List.mem_map.1 hs
      exact (ih t ht).plain
    · rw [count_reading_apply depth hh hargs, reading_apply depth hh hargs, Term.mentioned_app,
        List.flatMap_map, List.count_flatMap]
      exact List.sum_le_sum fun t ht => (ih t ht).covers x
    · rw [reading_apply depth hh hargs]
      exact fun p hp => absurd hp List.not_mem_nil

theorem plain_decode (t : Lambda) : (decode t).Plain := by
  rw [decode_eq_reading]
  exact (sound_reading 0 t).plain

end SugaredLambda.Church
