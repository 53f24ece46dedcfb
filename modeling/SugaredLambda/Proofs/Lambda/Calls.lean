import SugaredLambda.Proofs.Lambda.Confluence
import SugaredLambda.Proofs.Lambda.Scoped

/-! The contractions of a call put all arguments at once (`reduces_call`). -/
namespace SugaredLambda.Lambda
open Relation
variable {t u v : Lambda} {vs : List Lambda} {k : Nat} {d : Int}

/-- Puts `vs`, the last argument first, for the variables from `depth` on, and closes the gap that
they leave. -/
def put (vs : List Lambda) (depth : Int) : Lambda → Lambda
  | .var i =>
    if i < depth then .var i else
      match vs[(i - depth).toNat]? with
      | some v => v.shift depth 0
      | none => .var (i - vs.length)
  | .abs b => .abs (b.put vs (depth + 1))
  | .app f a => .app (f.put vs depth) (a.put vs depth)

theorem put_var_of_lt {i : Int} (vs : List Lambda) (h : i < d) : (var i).put vs d = .var i := by
  rw [put, if_pos h]

theorem put_nil (t : Lambda) (d : Int) : t.put [] d = t := by
  induction t generalizing d with
  | var i => simp [put]
  | abs b ih => rw [put, ih]
  | app f a ihf iha => rw [put, ihf, iha]

theorem put_of_within (h : t.Within k) (hd : k ≤ d) : t.put vs d = t := by
  induction t generalizing k d with
  | var i => exact put_var_of_lt vs (by have := h.2; omega)
  | abs b ih => rw [put, ih (k := k + 1) h (by omega)]
  | app f a ihf iha => rw [put, ihf h.1 hd, iha h.2 hd]

theorem put_of_closed {vs : List Lambda} (h : t.Within 0) (hd : 0 ≤ d) : t.put vs d = t :=
  put_of_within h hd

theorem shift_of_closed {n c : Int} (h : t.Within 0) (hc : 0 ≤ c) : t.shift n c = t := h.shift_eq hc

theorem subst_put (vs : List Lambda) (v t : Lambda) (hd : 0 ≤ d) :
    subst d v (t.put vs (d + 1)) = t.put (v :: vs) d := by
  induction t generalizing d with
  | var i =>
    obtain h | rfl | h := Int.lt_trichotomy i d
    · rw [put_var_of_lt vs (by omega), put_var_of_lt _ h, subst_var_of_lt v h]
    · rw [put_var_of_lt vs (by omega), subst_var_self]
      simp [put]
    · obtain ⟨j, rfl⟩ := Int.exists_add_of_le (by omega : d + 1 ≤ i)
      have hj : (d + 1 + (j : Int) - d).toNat = j + 1 := by omega
      have hj' : (d + 1 + (j : Int) - (d + 1)).toNat = j := by omega
      rw [put, put, if_neg (by omega), if_neg (by omega), hj, hj', List.getElem?_cons_succ]
      cases hv : vs[j]? with
      | some w => exact subst_shift w v hd (by omega)
      | none =>
        have hlen := List.getElem?_eq_none_iff.1 hv
        simp only
        rw [subst_var_of_gt v (by omega), List.length_cons]
        congr 1
        omega
  | abs b ih => rw [put, put, subst, ih (by omega)]
  | app f a ihf iha => rw [put, put, subst, ihf hd, iha hd]

theorem binders_succ (m : Nat) (t : Lambda) : binders (m + 1) t = binders m (.abs t) := by
  induction m with
  | zero => rfl
  | succ m ih => exact congrArg Lambda.abs ih

instance : Trans Reduces Reduces Reduces := ⟨ReflTransGen.trans⟩

theorem Reduces.apply {us : List Lambda} (ht : Reduces t u) (h : List.Forall₂ Reduces us vs) :
    Reduces (t.apply us) (u.apply vs) := by
  induction h generalizing t u with
  | nil => exact ht
  | cons h _ ih => exact ih (ht.app h)

theorem Reduces.binders (m : Nat) (h : Reduces t u) : Reduces (binders m t) (binders m u) := by
  induction m with
  | zero => exact h
  | succ m ih => exact ih.abs

theorem reduces_call (vs : List Lambda) (b : Lambda) :
    Reduces ((Lambda.binders vs.length b).apply vs.reverse) (b.put vs 0) := by
  induction vs generalizing b with
  | nil =>
    rw [put_nil]
    exact .refl
  | cons v vs ih =>
    rw [List.length_cons, binders_succ, List.reverse_cons, apply_append]
    refine ((ih (.abs b)).app (.refl (a := v))).tail ?_
    rw [← subst_put vs v b (Int.le_refl 0)]
    exact .beta _ _

theorem reduces_of_put (vs : List Lambda) {b r : Lambda} (h : b.put vs 0 = r) :
    Reduces ((Lambda.binders vs.length b).apply vs.reverse) r := h ▸ reduces_call vs b

end SugaredLambda.Lambda
