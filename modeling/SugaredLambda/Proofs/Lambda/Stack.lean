import SugaredLambda.Proofs.Lambda.Standard

/-! Reduction with a stack, over flat nests of applications, comes to what the recursion comes to
(`leaves`). -/
namespace SugaredLambda.Lambda
variable {limit left : Nat} {t u a b : Lambda} {args : List Lambda} {i : Int}

theorem spineOnto_eq (t : Lambda) (args : List Lambda) :
    spineOnto t args = (t.spine.1, t.spine.2 ++ args) := by
  induction t generalizing args with
  | app f a ihf _ =>
    rw [spineOnto, spine, spineOnto, ihf, ihf, List.append_assoc, List.singleton_append]
  | _ => rfl

theorem spine_apply_append (t : Lambda) (args : List Lambda) :
    (t.apply args).spine = (t.spine.1, t.spine.2 ++ args) := by
  rw [spine, spineOnto_apply, List.append_nil, spineOnto_eq]

theorem spine_apply_var (i : Int) (args : List Lambda) :
    (apply (.var i) args).spine = (.var i, args) :=
  spine_apply (fun _ _ => Lambda.noConfusion) args

theorem spine_apply_abs (b : Lambda) (args : List Lambda) :
    (apply (.abs b) args).spine = (.abs b, args) :=
  spine_apply (fun _ _ => Lambda.noConfusion) args

theorem exists_apply (t : Lambda) : (∃ i args, t = apply (.var i) args) ∨ (∃ b, t = .abs b) ∨
    ∃ b a args, t = apply (.abs b) (a :: args) := by
  induction t with
  | var i => exact .inl ⟨i, [], rfl⟩
  | abs b => exact .inr (.inl ⟨b, rfl⟩)
  | app f a ihf _ =>
    obtain ⟨i, args, rfl⟩ | ⟨b, rfl⟩ | ⟨b, c, args, rfl⟩ := ihf
    · exact .inl ⟨i, args ++ [a], (apply_append _ args [a]).symm⟩
    · exact .inr (.inr ⟨b, a, [], rfl⟩)
    · exact .inr (.inr ⟨b, c, args ++ [a], (apply_append _ (c :: args) [a]).symm⟩)

theorem Neutral.apply (h : t.Neutral) (args : List Lambda) : (t.apply args).Neutral := by
  induction args generalizing t with
  | nil => exact h
  | cons a args ih => exact ih (t := .app t a) h

theorem Neutral.contractHead (h : t.Neutral) : t.contractHead = none := by
  induction t with
  | var i => rfl
  | abs b => exact h.elim
  | app f a ihf _ =>
    have hf := ihf h
    cases f with
    | abs b => exact h.elim
    | _ => simp only [Lambda.contractHead, hf, Option.map_none]

theorem contractHead_apply (h : t.contractHead = some u) (args : List Lambda) :
    (t.apply args).contractHead = some (u.apply args) := by
  induction args generalizing t u with
  | nil => exact h
  | cons a args ih => exact ih (contractHead_fn h)

theorem contractHead_apply_abs (b a : Lambda) (args : List Lambda) :
    (apply (.abs b) (a :: args)).contractHead = some (apply (b.beta a) args) :=
  contractHead_apply (t := .app (.abs b) a) rfl args

/-- Contracts as long as the head is an abstraction with an argument; none when the limit is
too low. -/
def contractFlat : Nat → Lambda × List Lambda → Option ((Lambda × List Lambda) × Nat)
  | 0, (.abs _, _ :: _) => none
  | limit+1, (.abs b, a :: args) =>
    contractFlat limit ((b.beta a).spine.1, (b.beta a).spine.2 ++ args)
  | limit, flat => some (flat, limit)

theorem contractFlat_var (limit : Nat) (i : Int) (args : List Lambda) :
    contractFlat limit (.var i, args) = some ((.var i, args), limit) := by cases limit <;> rfl

theorem headNormal_of_none (h : t.contractHead = none) (limit : Nat) :
    headNormal limit t = some (t, limit) := by
  cases limit <;> simp [headNormal, h]

theorem headNormal_apply_var (limit : Nat) (i : Int) (args : List Lambda) :
    headNormal limit (apply (.var i) args) = some (apply (.var i) args, limit) :=
  headNormal_of_none (Neutral.apply (t := .var i) trivial args).contractHead limit

theorem contractFlat_spine (limit : Nat) (t : Lambda) :
    contractFlat limit t.spine = (headNormal limit t).map fun r => (r.1.spine, r.2) := by
  induction limit generalizing t with
  | zero =>
    obtain ⟨i, args, rfl⟩ | ⟨b, rfl⟩ | ⟨b, a, args, rfl⟩ := t.exists_apply
    · rw [headNormal_apply_var, Option.map_some, spine_apply_var, contractFlat_var]
    · rfl
    · rw [spine_apply_abs, contractFlat, headNormal, contractHead_apply_abs]
      rfl
  | succ limit ih =>
    obtain ⟨i, args, rfl⟩ | ⟨b, rfl⟩ | ⟨b, a, args, rfl⟩ := t.exists_apply
    · rw [headNormal_apply_var, Option.map_some, spine_apply_var, contractFlat_var]
    · rfl
    · rw [spine_apply_abs, contractFlat, headNormal, contractHead_apply_abs, ← spine_apply_append]
      exact ih _

theorem contractFlat_decreases {flat : Lambda × List Lambda}
    (h : contractFlat limit t.spine = some (flat, left)) :
    left < limit ∨ left = limit ∧ flat = t.spine := by
  rw [contractFlat_spine, Option.map_eq_some_iff] at h
  obtain ⟨r, hr, rfl, rfl⟩ := h
  exact (headNormal_decreases hr).imp_right fun ⟨heq, hsame⟩ => ⟨heq, congrArg spine hsame⟩

def normalAll : Nat → List Lambda → Option (List Lambda × Nat)
  | _, [] => some ([], 0)
  | limit, t :: ts => do
    let (u, k) ← normal limit t
    let (us, l) ← normalAll (limit - k) ts
    return (u :: us, k + l)

theorem length_normalAll {us : List Lambda} {k : Nat} (h : normalAll limit args = some (us, k)) :
    us.length = args.length := by
  induction args generalizing limit us k with
  | nil =>
    cases h
    rfl
  | cons a args ih =>
    simp only [normalAll, Option.bind_eq_bind, Option.bind_eq_some_iff, Option.pure_def,
      Option.some.injEq, Prod.exists, Prod.mk.injEq] at h
    obtain ⟨u, k, -, us, l, hus, rfl, rfl⟩ := h
    rw [List.length_cons, List.length_cons, ih hus]

theorem normal_of_headNormal (h : headNormal limit t = some (u, left)) :
    normal limit t = (normal left u).map fun r => (r.1, limit - left + r.2) := by
  have hu := headNormal_of_none (headNormal_eq_some h).1 left
  cases u with
  | var i => simp [normal_of_headNormal_var h, normal_of_headNormal_var hu]
  | abs b => simp [normal_of_headNormal_abs h, normal_of_headNormal_abs hu, Function.comp_def]
  | app f a =>
    simp [normal_of_headNormal_app h, normal_of_headNormal_app hu, Option.map_bind,
      Function.comp_def, Nat.add_assoc]

theorem normal_apply (ht : t.Neutral) (limit : Nat) (args : List Lambda) :
    normal limit (t.apply args) = (normal limit t).bind fun r =>
      (normalAll (limit - r.2) args).map fun s =>
      (r.1.apply s.1, r.2 + s.2) := by
  induction args generalizing t with
  | nil => cases hr : normal limit t <;> simp [apply, normalAll, hr]
  | cons a args ih =>
    have happ : (app t a).Neutral := ht
    refine (ih happ).trans ?_
    rw [normal_of_headNormal_app (headNormal_of_none happ.contractHead limit), Option.bind_assoc]
    refine Option.bind_congr fun r _ => ?_
    cases hs : normal (limit - r.2) a with
    | none => simp [normalAll, hs]
    | some s =>
      cases hq : normalAll (limit - (r.2 + s.2)) args <;>
        simp [normalAll, apply, hs, hq, Nat.sub_sub, Nat.add_assoc]

theorem normal_apply_var (limit : Nat) (i : Int) (args : List Lambda) :
    normal limit (apply (.var i) args) = (normalAll limit args).map fun r =>
      (apply (.var i) r.1, r.2) := by
  have hvar : normal limit (.var i) = some (.var i, 0) := by
    rw [normal_of_headNormal_var (headNormal_of_none rfl limit), Nat.sub_self]
  rw [normal_apply (t := .var i) trivial, hvar]
  simp

/-- A term to reduce, or a node whose parts are reduced. -/
inductive Item where
  | reduce (t : Lambda)
  | abs
  | apply (head : Lambda) (count : Nat)

namespace Item

def weight : List Item → Nat
  | [] => 0
  | .reduce t :: todo => 2 * t.size + weight todo
  | _ :: todo => weight todo + 1

theorem weight_reduce (ts : List Lambda) (todo : List Item) :
    weight (ts.map .reduce ++ todo) + 2 * ts.length = 2 * sizes ts + weight todo := by
  induction ts with
  | nil => exact (Nat.zero_add _).symm
  | cons t ts ih =>
    simp only [List.map_cons, List.cons_append, weight, List.length_cons, sizes]
    omega

end Item

theorem size_pos (t : Lambda) : 0 < t.size := by cases t <;> exact Nat.succ_pos _

private theorem item_decreases {flat : Lambda × List Lambda} {next todo : List Item}
    (h : contractFlat limit t.spine = some (flat, left))
    (hweight : flat = t.spine → Item.weight next < Item.weight (.reduce t :: todo)) :
    Prod.Lex (· < ·) (· < ·) (left, Item.weight next) (limit, Item.weight (.reduce t :: todo)) := by
  obtain hlt | ⟨rfl, hflat⟩ := contractFlat_decreases h
  · exact .left _ _ hlt
  · exact .right _ (hweight hflat)

/-- Takes up one item after the other. The last term done comes first; none when the limit is
too low. -/
def reduceAll (limit : Nat) : List Item → List Lambda → Option (List Lambda × Nat)
  | [], done => some (done, limit)
  | .reduce t :: todo, done =>
    match _h : contractFlat limit t.spine with
    | none => none
    | some ((.abs b, []), left) => reduceAll left (.reduce b :: .abs :: todo) done
    | some ((head, args), left) =>
      reduceAll left (args.map .reduce ++ .apply head args.length :: todo) done
  | .abs :: todo, b :: done => reduceAll limit todo (.abs b :: done)
  | .apply head count :: todo, done =>
    reduceAll limit todo (head.apply (done.take count).reverse :: done.drop count)
  -- a body is done before its node, so that this does not come up
  | .abs :: todo, [] => reduceAll limit todo []
termination_by todo => (limit, Item.weight todo)
decreasing_by
  · refine item_decreases _h fun hflat => ?_
    have hsize := size_spine t
    rw [← hflat] at hsize
    simp only [Item.weight, size, sizes] at hsize ⊢
    omega
  · refine item_decreases _h fun hflat => ?_
    have hsize := size_spine t
    have hpos := size_pos head
    have hargs := Item.weight_reduce args (.apply head args.length :: todo)
    rw [← hflat] at hsize
    simp only [Item.weight] at hsize hargs ⊢
    omega
  · exact .right _ (Nat.lt_succ_self _)
  · exact .right _ (Nat.lt_succ_self _)
  · exact .right _ (Nat.lt_succ_self _)

/-- A term on the stack leaves its normal form on top of what is done, and what it leaves of
the limit. -/
def Leaves (limit : Nat) (t : Lambda) : Prop :=
  ∀ todo done, reduceAll limit (.reduce t :: todo) done =
    (normal limit t).bind fun r => reduceAll (limit - r.2) todo (r.1 :: done)

theorem leaves_of_headNormal_none (h : headNormal limit t = none) : Leaves limit t := by
  intro todo done
  have hflat := contractFlat_spine limit t
  rw [h, Option.map_none] at hflat
  rw [reduceAll, hflat, normal_of_headNormal_none h]
  rfl

theorem leaves_of_headNormal_abs (h : headNormal limit t = some (.abs b, left))
    (hb : Leaves left b) : Leaves limit t := by
  intro todo done
  have hle := headNormal_le h
  have hflat := contractFlat_spine limit t
  rw [h] at hflat
  rw [reduceAll, hflat, normal_of_headNormal_abs h, Option.bind_map]
  refine (hb _ _).trans (Option.bind_congr fun r _ => ?_)
  have hcount : left - r.2 = limit - (limit - left + r.2) := by omega
  rw [reduceAll, hcount]
  rfl

theorem reduceAll_map (h : ∀ a ∈ args, ∀ left ≤ limit, Leaves left a) (todo : List Item)
    (done : List Lambda) :
    reduceAll limit (args.map .reduce ++ todo) done =
      (normalAll limit args).bind fun r => reduceAll (limit - r.2) todo (r.1.reverse ++ done) := by
  induction args generalizing limit done with
  | nil => rfl
  | cons a args ih =>
    rw [List.map_cons, List.cons_append, h a List.mem_cons_self limit (Nat.le_refl limit)]
    cases hr : normal limit a with
    | none => simp [normalAll, hr]
    | some r =>
      have hargs : ∀ c ∈ args, ∀ left ≤ limit - r.2, Leaves left c := fun c hc left hle =>
        h c (List.mem_cons_of_mem a hc) left (Nat.le_trans hle (Nat.sub_le limit r.2))
      rw [Option.bind_some, ih hargs]
      cases hs : normalAll (limit - r.2) args <;> simp [normalAll, hr, hs, Nat.sub_sub]

theorem leaves_of_headNormal_apply_var (h : headNormal limit t = some (apply (.var i) args, left))
    (hargs : ∀ a ∈ args, ∀ l ≤ left, Leaves l a) : Leaves limit t := by
  intro todo done
  have hle := headNormal_le h
  have hflat := contractFlat_spine limit t
  rw [h, Option.map_some, spine_apply_var] at hflat
  rw [reduceAll, hflat, normal_of_headNormal h, normal_apply_var, Option.map_map, Option.bind_map]
  refine (reduceAll_map hargs _ _).trans (Option.bind_congr fun r hr => ?_)
  have hlen := length_normalAll hr
  have hcount : left - r.2 = limit - (limit - left + r.2) := by omega
  rw [reduceAll, ← hlen, ← List.length_reverse, List.take_left, List.drop_left,
    List.reverse_reverse, hcount]
  rfl

theorem size_lt_sizes (h : a ∈ args) : a.size < sizes args := by
  induction args with
  | nil => cases h
  | cons c args ih =>
    rw [sizes]
    obtain rfl | h := List.mem_cons.1 h
    · omega
    · have := ih h
      omega

theorem size_lt_of_mem_apply (h : a ∈ args) (head : Lambda) : a.size < (head.apply args).size := by
  have hsize := size_spine (head.apply args)
  have hspine := size_spine head
  have hmem := size_lt_sizes (List.mem_append_right head.spine.2 h)
  simp only [spine_apply_append] at hsize
  omega

private theorem part_decreases {l : Nat} {s : Lambda} (h : headNormal limit t = some (u, left))
    (hl : l ≤ left) (hs : s.size < u.size) :
    Prod.Lex (· < ·) (· < ·) (l, s.size) (limit, t.size) := by
  obtain hlt | ⟨rfl, rfl⟩ := headNormal_decreases h
  · exact .left _ _ (Nat.lt_of_le_of_lt hl hlt)
  · obtain hlt | rfl := Nat.lt_or_eq_of_le hl
    · exact .left _ _ hlt
    · exact .right _ hs

/-- The loop comes to what the recursion comes to, for every term and within every limit. -/
theorem leaves (limit : Nat) (t : Lambda) : Leaves limit t := by
  cases h : headNormal limit t with
  | none => exact leaves_of_headNormal_none h
  | some r =>
    obtain ⟨u, left⟩ := r
    obtain ⟨i, args, rfl⟩ | ⟨b, rfl⟩ | ⟨b, a, args, rfl⟩ := u.exists_apply
    · exact leaves_of_headNormal_apply_var h fun a ha l hl => leaves l a
    · exact leaves_of_headNormal_abs h (leaves left b)
    · cases (contractHead_apply_abs b a args).symm.trans (headNormal_eq_some h).1
termination_by (limit, t.size)
decreasing_by
  · exact part_decreases h hl (size_lt_of_mem_apply ha _)
  · exact part_decreases h (Nat.le_refl left) (Nat.lt_succ_self _)

theorem reduceAll_term (limit : Nat) (t : Lambda) :
    reduceAll limit [.reduce t] [] = (normal limit t).map fun r => ([r.1], limit - r.2) := by
  rw [leaves limit t, Option.map_eq_bind]
  exact Option.bind_congr fun r _ => by rw [reduceAll, Function.comp_apply]

theorem reduceAll_term_iff :
    reduceAll limit [.reduce t] [] = some ([u], left) ↔
      left ≤ limit ∧ leftmostAfter (limit - left) t = some u ∧ u.leftmost = none := by
  rw [reduceAll_term, Option.map_eq_some_iff]
  constructor
  · rintro ⟨⟨r, k⟩, hr, heq⟩
    cases heq
    obtain ⟨hle, hsteps, hend⟩ := normal_eq_some hr
    exact ⟨Nat.sub_le limit k, by rwa [Nat.sub_sub_self hle], hend⟩
  · rintro ⟨hle, hsteps, hend⟩
    obtain ⟨k, hk⟩ := normal_eq_some_of_endsWithin ⟨hend, _, Nat.sub_le limit left, hsteps⟩
    obtain ⟨hlimit, hsteps', -⟩ := normal_eq_some hk
    have hcount : k = limit - left := Nat.le_antisymm (leftmostAfter_unique hsteps hend hsteps')
      (leftmostAfter_unique hsteps' hend hsteps)
    refine ⟨(u, k), hk, ?_⟩
    rw [hcount, Nat.sub_sub_self hle]

def normalizeFlat (limit : Nat) (t : Lambda) : Except Error Lambda :=
  match reduceAll limit [.reduce t] [] with
  | some (r :: _, _) => return r
  | _ => throw (.stepLimit limit)

theorem normalizeFlat_eq (limit : Nat) (t : Lambda) :
    normalizeFlat limit t = normalize limit t := by
  rw [normalizeFlat, reduceAll_term, normalize]
  cases normal limit t <;> rfl

/-- `normalize` is leftmost-outermost reduction within a limit, and so is the loop. It always
answers; a higher limit does not change a result, and a normal form needs none. -/
theorem normalize_leftmost (limit : Nat) (t : Lambda) :
    (∀ r, normalize limit t = .ok r ↔ EndsWithin limit t r) ∧
    ((¬ ∃ r, EndsWithin limit t r) → normalize limit t = .error (.stepLimit limit)) ∧
    (∀ r more, normalize limit t = .ok r → limit ≤ more → normalize more t = .ok r) ∧
    (t.leftmost = none → normalize 0 t = .ok t) ∧
    normalizeFlat limit t = normalize limit t ∧
    ∀ r left, reduceAll limit [.reduce t] [] = some ([r], left) ↔
      left ≤ limit ∧ leftmostAfter (limit - left) t = some r ∧ r.leftmost = none := by
  refine ⟨fun r => normalize_eq_ok_iff, fun hnone => ?_, fun r more h hm => ?_, fun ht => ?_,
    normalizeFlat_eq limit t, fun r left => reduceAll_term_iff⟩
  · cases normalize_eq_ok_or limit t with
    | inl hok =>
      obtain ⟨r, hr⟩ := hok
      exact absurd ⟨r, normalize_eq_ok_iff.1 hr⟩ hnone
    | inr he => exact he
  · exact normalize_eq_ok_iff.2 ((normalize_eq_ok_iff.1 h).mono hm)
  · exact normalize_eq_ok_iff.2 ⟨ht, 0, Nat.le_refl 0, rfl⟩

/-- `(λ λ 0) Ω` needs one step, although its argument has no normal form. -/
theorem normalize_leftmost_drops :
    let ω : Lambda := .abs (.app (.var 0) (.var 0))
    let t : Lambda := .app (.abs (.abs (.var 0))) (.app ω ω)
    normalize 1 t = .ok (.abs (.var 0)) ∧ normalize 0 t = .error (.stepLimit 0) := by
  refine ⟨(normalize_leftmost 1 _).1 _ |>.2 ⟨rfl, 1, Nat.le_refl 1, rfl⟩,
    (normalize_leftmost 0 _).2.1 ?_⟩
  rintro ⟨r, hr, k, hk, hsteps⟩
  obtain rfl := Nat.le_zero.1 hk
  obtain rfl := Option.some.inj hsteps
  contradiction

end SugaredLambda.Lambda
