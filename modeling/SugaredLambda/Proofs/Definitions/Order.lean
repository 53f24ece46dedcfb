import Mathlib.Data.Set.Finite.List
import Mathlib.Order.WellFoundedSet
import SugaredLambda.Definitions.Order

/-! Definitions are placed in turn, or else where all that are left miss something (`order_eq`), and
a list of this shape keeps its order (`order_of_inOrder`). -/
namespace SugaredLambda.Definitions
open Relation

/-- Definitions one after the other, each with those before it ready. -/
def placeInTurn : List String → List Pending → List Placed
  | _, [] => []
  | ready, p :: pending => p.place ready :: placeInTurn (p.name :: ready) pending

section
variable {ready ready' : List String}

theorem placeInTurn_congr (h : ∀ x, x ∈ ready ↔ x ∈ ready') (ps : List Pending) :
    placeInTurn ready ps = placeInTurn ready' ps := by
  induction ps generalizing ready ready' with
  | nil => rfl
  | cons p ps ih =>
    have hplace : p.place ready = p.place ready' := by
      simp only [Pending.place, List.contains_eq_mem, h]
    have hready : ∀ x, x ∈ p.name :: ready ↔ x ∈ p.name :: ready' := fun x => by
      simp only [List.mem_cons, h]
    rw [placeInTurn, placeInTurn, hplace, ih hready]

theorem placeInTurn_append (ready : List String) (ps qs : List Pending) :
    placeInTurn ready (ps ++ qs) =
      placeInTurn ready ps ++ placeInTurn (ps.map (·.name) ++ ready) qs := by
  induction ps generalizing ready with
  | nil => rfl
  | cons p ps ih =>
    rw [List.cons_append, placeInTurn, ih, placeInTurn, List.cons_append]
    refine congrArg (_ :: _ ++ ·) (placeInTurn_congr (fun x => ?_) qs)
    simp only [List.map_cons, List.cons_append, List.mem_append, List.mem_cons]
    exact or_left_comm

@[simp] theorem map_name_placeInTurn (ready : List String) (ps : List Pending) :
    (placeInTurn ready ps).map (·.name) = ps.map (·.name) := by
  induction ps generalizing ready with
  | nil => rfl
  | cons p ps ih => rw [placeInTurn, List.map_cons, ih, List.map_cons]; rfl

@[simp] theorem map_binding_placeInTurn (ready : List String) (ps : List Pending) :
    (placeInTurn ready ps).map (·.binding) = ps.map (·.binding) := by
  induction ps generalizing ready with
  | nil => rfl
  | cons p ps ih => rw [placeInTurn, List.map_cons, ih, List.map_cons]; rfl

end

theorem missing_place {p : Pending} {ready : List String} :
    (p.place ready).missing = [] ↔ p.needs ⊆ ready := by
  rw [Pending.place, List.filter_eq_nil_iff]
  exact forall₂_congr fun x _ => by simp

/-- Each definition needs only what is ready, or else so does none from there on. -/
def InOrder : List String → List Pending → Prop
  | _, [] => True
  | ready, p :: pending =>
    (p.needs ⊆ ready ∨ ∀ q ∈ p :: pending, ¬q.needs ⊆ ready) ∧ InOrder (p.name :: ready) pending

section
variable {ready ready' : List String} {ps qs : List Pending}

theorem InOrder.congr (h : ∀ x, x ∈ ready ↔ x ∈ ready') (hps : InOrder ready ps) :
    InOrder ready' ps := by
  induction ps generalizing ready ready' with
  | nil => trivial
  | cons p ps ih =>
    have hsub : ∀ q : Pending, q.needs ⊆ ready ↔ q.needs ⊆ ready' :=
      fun q => forall₂_congr fun x _ => h x
    have hready : ∀ x, x ∈ p.name :: ready ↔ x ∈ p.name :: ready' := fun x => by
      simp only [List.mem_cons, h]
    simp only [InOrder, hsub] at hps ⊢
    exact ⟨hps.1, ih hready hps.2⟩

theorem InOrder.map {f : Pending → Pending}
    (hf : ∀ p ∈ ps, (f p).name = p.name ∧ ∀ x, x ∈ (f p).needs ↔ x ∈ p.needs)
    (hps : InOrder ready ps) : InOrder ready (ps.map f) := by
  induction ps generalizing ready with
  | nil => trivial
  | cons p ps ih =>
    have hsub : ∀ q ∈ p :: ps, ((f q).needs ⊆ ready ↔ q.needs ⊆ ready) := fun q hq => by
      simp only [List.subset_def, (hf q hq).2]
    obtain ⟨hp, hrest⟩ := hps
    refine ⟨hp.imp (hsub p List.mem_cons_self).2 fun h q hq => ?_, ?_⟩
    · replace hq : q ∈ (p :: ps).map f := hq
      obtain ⟨q, hmem, rfl⟩ := List.mem_map.1 hq
      exact mt (hsub q hmem).1 (h q hmem)
    · rw [(hf p List.mem_cons_self).1]
      exact ih (fun q hq => hf q (List.mem_cons_of_mem p hq)) hrest

theorem InOrder.append (hps : ∀ p ∈ placeInTurn ready ps, p.missing = [])
    (hqs : InOrder (ps.map (·.name) ++ ready) qs) : InOrder ready (ps ++ qs) := by
  induction ps generalizing ready with
  | nil => exact hqs
  | cons p ps ih =>
    obtain ⟨hp, hps⟩ := List.forall_mem_cons.1 hps
    exact ⟨.inl (missing_place.1 hp), ih hps (hqs.congr fun x => by simp [or_left_comm])⟩

theorem InOrder.of_append (h : InOrder ready (ps ++ qs)) :
    InOrder (ps.map (·.name) ++ ready) qs := by
  induction ps generalizing ready with
  | nil => exact h
  | cons p ps ih => exact (ih h.2).congr fun x => by simp [or_left_comm]

end

theorem pass_eq (ready : List String) (pending : List Pending) :
    ∃ ps, (pass ready pending).1 = placeInTurn ready ps ∧
    (ps ++ (pass ready pending).2).Perm pending := by
  induction pending generalizing ready with
  | nil => exact ⟨[], rfl, .refl _⟩
  | cons p pending ih =>
    rw [pass]
    split
    · obtain ⟨ps, hplaced, hperm⟩ := ih (p.name :: ready)
      exact ⟨p :: ps, congrArg (_ :: ·) hplaced, hperm.cons p⟩
    · obtain ⟨ps, hplaced, hperm⟩ := ih ready
      exact ⟨ps, hplaced, List.perm_middle.trans (hperm.cons p)⟩

theorem missing_pass (ready : List String) (pending : List Pending) :
    ∀ p ∈ (pass ready pending).1, p.missing = [] := by
  induction pending generalizing ready with
  | nil => exact fun p hp => absurd hp List.not_mem_nil
  | cons p pending ih =>
    rw [pass]
    split
    next h => exact List.forall_mem_cons.2 ⟨List.isEmpty_iff.1 h, ih _⟩
    next => exact ih ready

theorem pass_eq_nil {ready : List String} {pending : List Pending} :
    (pass ready pending).1 = [] ↔ ∀ p ∈ pending, ¬p.needs ⊆ ready := by
  induction pending with
  | nil => exact ⟨fun _ p hp => absurd hp List.not_mem_nil, fun _ => rfl⟩
  | cons p pending ih =>
    rw [pass, List.forall_mem_cons, ← ih, ← missing_place]
    split
    next h =>
      exact ⟨fun hcons => absurd hcons (List.cons_ne_nil _ _),
        fun hnot => absurd (List.isEmpty_iff.1 h) hnot.1⟩
    next h => exact (and_iff_right (mt List.isEmpty_iff.2 h)).symm

theorem pass_of_missing {ready : List String} {pending : List Pending}
    (h : ∀ p ∈ pending, ¬p.needs ⊆ ready) : pass ready pending = ([], pending) := by
  induction pending with
  | nil => rfl
  | cons p pending ih =>
    obtain ⟨hp, hpending⟩ := List.forall_mem_cons.1 h
    rw [pass, if_neg (mt List.isEmpty_iff.1 (mt missing_place.1 hp)), ih hpending]

/-- An order places all definitions in turn, in an order of the right shape. -/
theorem order_eq (ready : List String) (pending : List Pending) :
    ∃ ps, ps.Perm pending ∧ InOrder ready ps ∧ order ready pending = placeInTurn ready ps := by
  fun_induction order ready pending with
  | case1 ready pending placed h =>
    obtain ⟨ps, hplaced, hperm⟩ := pass_eq ready pending
    have hmissing := missing_pass ready pending
    rw [h] at hplaced hperm hmissing
    replace hplaced : placed = placeInTurn ready ps := hplaced
    have hps : InOrder ready (ps ++ []) := .append (hplaced ▸ hmissing) trivial
    exact ⟨ps ++ [], hperm, hps, by rwa [List.append_nil]⟩
  | case2 ready pending p left h ih =>
    obtain ⟨ps, hplaced, hperm⟩ := pass_eq ready pending
    have hstuck := pass_eq_nil.1 (congrArg Prod.fst h)
    rw [h] at hplaced hperm
    obtain ⟨qs, hqs, hinOrder, hrest⟩ := ih
    obtain rfl : ps = [] := by
      cases ps with
      | nil => rfl
      | cons => exact absurd hplaced.symm (List.cons_ne_nil _ _)
    have hall : (p :: qs).Perm pending := (hqs.cons p).trans hperm
    exact ⟨p :: qs, hall, ⟨.inr fun q hq => hstuck q (hall.subset hq), hinOrder⟩,
      congrArg (_ :: ·) hrest⟩
  | case3 ready pending p placed left hleft h ih =>
    obtain ⟨ps, hplaced, hperm⟩ := pass_eq ready pending
    have hmissing := missing_pass ready pending
    rw [h] at hplaced hperm hmissing
    obtain ⟨qs, hqs, hinOrder, hrest⟩ := ih
    replace hplaced : p :: placed = placeInTurn ready ps := hplaced
    rw [hplaced, map_name_placeInTurn] at hinOrder hrest
    refine ⟨ps ++ qs, (hqs.append_left ps).trans hperm, .append (hplaced ▸ hmissing) hinOrder, ?_⟩
    rw [hplaced, map_name_placeInTurn, hrest, placeInTurn_append]

theorem pass_of_inOrder {ready : List String} {ps : List Pending} (h : InOrder ready ps) :
    ∃ front, ps = front ++ (pass ready ps).2 ∧ (pass ready ps).1 = placeInTurn ready front := by
  induction ps generalizing ready with
  | nil => exact ⟨[], rfl, rfl⟩
  | cons p ps ih =>
    rcases h.1 with hp | hmissing
    · obtain ⟨front, hps, hplaced⟩ := ih h.2
      rw [pass, if_pos (List.isEmpty_iff.2 (missing_place.2 hp))]
      exact ⟨p :: front, congrArg (p :: ·) hps, congrArg (_ :: ·) hplaced⟩
    · rw [pass_of_missing hmissing]
      exact ⟨[], rfl, rfl⟩

/-- Definitions in order stay where they are. -/
theorem order_of_inOrder {ready : List String} {ps : List Pending} (h : InOrder ready ps) :
    order ready ps = placeInTurn ready ps := by
  fun_induction order ready ps with
  | case1 ready ps placed hpass =>
    obtain ⟨front, hps, hplaced⟩ := pass_of_inOrder h
    rw [hpass] at hps hplaced
    rw [hps, List.append_nil]
    exact hplaced
  | case2 ready ps p left hpass ih =>
    obtain rfl : ps = p :: left := by
      rw [pass_of_missing (pass_eq_nil.1 (congrArg Prod.fst hpass))] at hpass
      exact (Prod.mk.inj hpass).2
    exact congrArg (_ :: ·) (ih h.2)
  | case3 ready ps p placed left hleft hpass ih =>
    obtain ⟨front, hps, hplaced⟩ := pass_of_inOrder h
    rw [hpass] at hps hplaced
    replace hplaced : p :: placed = placeInTurn ready front := hplaced
    rw [hplaced, map_name_placeInTurn] at ih ⊢
    rw [hps] at h
    rw [ih h.of_append, hps, placeInTurn_append]

def Needs (pending : List Pending) (n m : String) : Prop := ∃ p ∈ pending, p.name = n ∧ m ∈ p.needs

/-- Whoever always finds a next one among finitely many comes back to where they were. -/
theorem exists_cycle {α : Type} {r : α → α → Prop} {s : Set α} (hfinite : s.Finite)
    (hne : s.Nonempty) (h : ∀ a ∈ s, ∃ b ∈ s, r a b) : ∃ a ∈ s, TransGen r a a := by
  -- the relation is taken among these only, so that the one who comes back is one of them
  obtain ⟨a, ha⟩ : ∃ a, TransGen (fun a b => a ∈ s ∧ r a b) a a := by
    by_contra hnone
    have horder : IsStrictOrder α fun a b => TransGen (fun a b => a ∈ s ∧ r a b) b a :=
      { irrefl := fun a ha => hnone ⟨a, ha⟩, trans := fun _ _ _ hab hbc => hbc.trans hab }
    obtain ⟨a, ha⟩ := hne
    obtain ⟨b, -, hmin⟩ :=
      (hfinite.wellFoundedOn (r := fun a b => TransGen (fun a b => a ∈ s ∧ r a b) b a)).has_min
      Set.univ ⟨⟨a, ha⟩, trivial⟩
    obtain ⟨c, hc, hbc⟩ := h b b.2
    exact hmin ⟨c, hc⟩ trivial (.single ⟨b.2, hbc⟩)
  obtain ⟨b, ⟨hmem, -⟩, -⟩ := TransGen.head'_iff.1 ha
  exact ⟨a, hmem, TransGen.mono (fun _ _ => And.right) a a ha⟩

/-- In order, a definition from which no cycle is reached stands behind all that it needs: had it
been placed without, all that were left would have missed another of them, and so on for ever. -/
theorem needs_of_inOrder {pending before after : List Pending} {p : Pending}
    (hperm : (before ++ p :: after).Perm pending) (h : InOrder [] (before ++ p :: after))
    (hknown : ∀ q ∈ pending, ∀ x ∈ q.needs, x ∈ pending.map (·.name))
    (hclear : ∀ n, ReflTransGen (Needs pending) p.name n → ¬TransGen (Needs pending) n n) :
    ∀ x ∈ p.needs, x ∈ before.map (·.name) := by
  have hinOrder := h.of_append
  rw [List.append_nil] at hinOrder
  rcases hinOrder.1 with hp | hmissing
  · exact fun x hx => hp hx
  · have hnext : ∀ n ∈ {n | n ∈ (p :: after).map (·.name) ∧ ReflTransGen (Needs pending) p.name n},
        ∃ m ∈ {n | n ∈ (p :: after).map (·.name) ∧ ReflTransGen (Needs pending) p.name n},
          Needs pending n m := by
      rintro n ⟨hn, hreach⟩
      obtain ⟨q, hq, rfl⟩ := List.mem_map.1 hn
      obtain ⟨m, hm, hlate⟩ : ∃ m ∈ q.needs, m ∉ before.map (·.name) := by
        simpa only [List.subset_def, not_forall, exists_prop] using hmissing q hq
      have hq' : q ∈ pending := hperm.subset (List.mem_append_right before hq)
      have hneeds : Needs pending q.name m := ⟨q, hq', rfl, hm⟩
      have hname := hknown q hq' m hm
      rw [← (hperm.map (·.name)).mem_iff, List.map_append, List.mem_append] at hname
      exact ⟨m, ⟨hname.resolve_left hlate, hreach.tail hneeds⟩, hneeds⟩
    have hfinite := (List.finite_toSet ((p :: after).map (·.name))).inter_of_left
      {n | ReflTransGen (Needs pending) p.name n}
    obtain ⟨n, ⟨-, hreach⟩, hcycle⟩ :=
      exists_cycle hfinite ⟨p.name, List.mem_cons_self, .refl⟩ hnext
    exact absurd hcycle (hclear n hreach)

theorem exists_first {α : Type} {p : α → Prop} {l : List α} (h : ∃ x ∈ l, p x) :
    ∃ before x after, l = before ++ x :: after ∧ p x ∧ ∀ y ∈ before, ¬p y := by
  classical
  obtain ⟨x, hx⟩ := Option.isSome_iff_exists.1
    (List.find?_isSome.2 (by simpa using h) : (l.find? (p ·)).isSome)
  obtain ⟨hp, before, after, hl, hbefore⟩ := List.find?_eq_some_iff_append.1 hx
  exact ⟨before, x, after, hl, by simpa using hp, fun y hy => by simpa using hbefore y hy⟩

/-- With distinct names, the first definition of a cycle to be placed needs one that comes later. -/
theorem exists_missing {pending : List Pending}
    (hdistinct : (pending.map (·.name)).Nodup) {n : String}
    (hcycle : TransGen (Needs pending) n n) :
    ∃ before p after x, (before ++ p :: after).Perm pending ∧
      order [] pending = placeInTurn [] (before ++ p :: after) ∧ x ∈ p.needs ∧
      x ∉ before.map (·.name) ∧ TransGen (Needs pending) n x ∧ TransGen (Needs pending) x n := by
  obtain ⟨ps, hperm, -, horder⟩ := order_eq [] pending
  have hmember :
      ∃ p ∈ ps, TransGen (Needs pending) n p.name ∧ TransGen (Needs pending) p.name n := by
    obtain ⟨m, ⟨p, hp, rfl, -⟩, -⟩ := TransGen.head'_iff.1 hcycle
    exact ⟨p, hperm.mem_iff.2 hp, hcycle, hcycle⟩
  obtain ⟨before, p, after, rfl, ⟨hto, hback⟩, hbefore⟩ := exists_first hmember
  obtain ⟨m, ⟨q, hq, hname, hm⟩, hrest⟩ := TransGen.head'_iff.1 hback
  obtain rfl : q = p := List.inj_on_of_nodup_map hdistinct hq (hperm.mem_iff.1 (by simp)) hname
  have hto' : TransGen (Needs pending) n m := hto.tail ⟨q, hq, rfl, hm⟩
  have hback' : TransGen (Needs pending) m n := .trans_right hrest hcycle
  refine ⟨before, q, after, m, hperm, horder, hm, fun hready => ?_, hto', hback'⟩
  obtain ⟨b, hb, rfl⟩ := List.mem_map.1 hready
  exact hbefore b hb ⟨hto', hback'⟩

end SugaredLambda.Definitions
