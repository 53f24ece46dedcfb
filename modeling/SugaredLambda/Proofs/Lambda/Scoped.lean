import SugaredLambda.Proofs.Lambda.Occurrences
import SugaredLambda.Proofs.Lambda.Standard

/-! Terms whose variables are bound inside or among some binders outside; reduction keeps them so.
-/
namespace SugaredLambda.Lambda
variable {t u v a b : Lambda} {k m : Nat} {d : Int}

/-- Every variable is bound in the term or by one of the next `k` binders around it. -/
def Within (k : Nat) : Lambda → Prop
  | .var i => 0 ≤ i ∧ i < k
  | .abs b => b.Within (k + 1)
  | .app f a => f.Within k ∧ a.Within k

namespace Within

theorem mono (h : t.Within k) (hk : k ≤ m) : t.Within m := by
  induction t generalizing k m with
  | var i => exact ⟨h.1, by have := h.2; omega⟩
  | abs b ih => exact ih (k := k + 1) h (by omega)
  | app f a ihf iha => exact ⟨ihf h.1 hk, iha h.2 hk⟩

theorem nonneg (h : t.Within k) : t.Nonneg := by
  induction t generalizing k with
  | var i => exact h.1
  | abs b ih => exact ih (k := k + 1) h
  | app f a ihf iha => exact ⟨ihf h.1, iha h.2⟩

theorem occurrences_eq_zero {i : Int} (h : t.Within k) (hi : k ≤ i) : t.occurrences i = 0 := by
  induction t generalizing k i with
  | var j =>
    have hne : j ≠ i := by have := h.2; omega
    rw [occurrences, if_neg hne]
  | abs b ih => exact ih (k := k + 1) h (by omega)
  | app f a ihf iha => rw [occurrences, ihf h.1 hi, iha h.2 hi]

theorem subst_eq (h : t.Within k) (hd : k ≤ d) : subst d v t = t := by
  induction t generalizing k d with
  | var i => exact subst_var_of_lt v (by have := h.2; omega)
  | abs b ih => rw [subst, ih (k := k + 1) h (by omega)]
  | app f a ihf iha => rw [subst, ihf h.1 hd, iha h.2 hd]

theorem shift_eq {n c : Int} (h : t.Within k) (hc : k ≤ c) : t.shift n c = t := by
  induction t generalizing k c with
  | var i => exact shift_var_of_lt (by have := h.2; omega)
  | abs b ih => rw [Lambda.shift, ih (k := k + 1) h (by omega)]
  | app f a ihf iha => rw [Lambda.shift, ihf h.1 hc, iha h.2 hc]

theorem shift (h : t.Within k) (m : Nat) (c : Int) : (t.shift m c).Within (k + m) := by
  induction t generalizing k c with
  | var i =>
    have hi := h
    by_cases hc : c ≤ i
    · rw [shift_var_of_le hc]
      exact ⟨by have := hi.1; omega, by have := hi.2; omega⟩
    · rw [shift_var_of_lt (by omega)]
      exact ⟨hi.1, by have := hi.2; omega⟩
  | abs b ih =>
    have hb := ih (k := k + 1) h (c + 1)
    rwa [Nat.add_right_comm] at hb
  | app f a ihf iha => exact ⟨ihf h.1 c, iha h.2 c⟩

theorem subst {m : Nat} (h : t.Within (k + m + 1)) (hv : v.Within k) :
    (Lambda.subst m v t).Within (k + m) := by
  induction t generalizing m with
  | var i =>
    obtain ⟨h0, hi⟩ := h
    obtain hlt | rfl | hgt := Int.lt_trichotomy i m
    · rw [subst_var_of_lt v hlt]
      exact ⟨h0, by omega⟩
    · rw [subst_var_self]
      exact hv.shift m 0
    · rw [subst_var_of_gt v hgt]
      exact ⟨by omega, by omega⟩
  | abs b ih => exact ih (m := m + 1) h
  | app f a ihf iha => exact ⟨ihf h.1, iha h.2⟩

theorem beta (hb : b.Within (k + 1)) (ha : a.Within k) : (b.beta a).Within k :=
  Within.subst (m := 0) hb ha

theorem contracts (h : t.Within k) (hs : Contracts t u) : u.Within k := by
  induction hs generalizing k with
  | beta b a => exact beta h.1 h.2
  | abs _ ih => exact ih (k := k + 1) h
  | fn a _ ih => exact ⟨ih h.1, h.2⟩
  | arg f _ ih => exact ⟨h.1, ih h.2⟩

theorem reduces (h : t.Within k) (hs : Reduces t u) : u.Within k := by
  induction hs with
  | refl => exact h
  | tail _ hs ih => exact ih.contracts hs

end Within
end SugaredLambda.Lambda
