import SugaredLambda.Church.Encoding
import SugaredLambda.Proofs.Lambda.Confluence
import SugaredLambda.Proofs.Lambda.Scoped

/-! Delayed references to a record. Putting `λ_. self` for each of them passes shifts, substitutions
and contractions. -/
namespace SugaredLambda.Church
open Lambda
variable {t u v a b : Lambda} {i j n c d : Int}

theorem delaySelf_var_self (j : Int) : delaySelf j (.var (j - 1)) = .abs (.var j) := by
  simp [delaySelf]

theorem delaySelf_var_of_ne (h : i ≠ j - 1) : delaySelf j (.var i) = .var i := by
  simp [delaySelf, h]

/-- References to a record and to one around it are delayed in any order. -/
theorem delaySelf_delaySelf (t : Lambda) (h : i < j) :
    delaySelf j (delaySelf i t) = delaySelf i (delaySelf j t) := by
  induction t generalizing i j with
  | var n =>
    by_cases hi : n = i - 1
    · subst hi
      rw [delaySelf_var_self, delaySelf_var_of_ne (by omega : i - 1 ≠ j - 1),
        delaySelf_var_self, delaySelf, delaySelf_var_of_ne (by omega)]
    · by_cases hj : n = j - 1
      · subst hj
        rw [delaySelf_var_of_ne hi, delaySelf_var_self, delaySelf, delaySelf_var_of_ne (by omega)]
      · rw [delaySelf_var_of_ne hi, delaySelf_var_of_ne hj, delaySelf_var_of_ne hi]
  | abs b ih => simp only [delaySelf, ih (by omega : i + 1 < j + 1)]
  | app f a ihf iha => simp only [delaySelf, ihf h, iha h]

theorem delaySelf_shift_gap (t : Lambda) (hc : c < j) (hj : j ≤ c + n) :
    delaySelf j (t.shift n c) = t.shift n c := by
  induction t generalizing c j with
  | var i =>
    by_cases h : c ≤ i
    · rw [shift_var_of_le h, delaySelf_var_of_ne (by omega)]
    · rw [shift_var_of_lt (by omega), delaySelf_var_of_ne (by omega)]
  | abs b ih => simp only [Lambda.shift, delaySelf, ih (by omega : c + 1 < j + 1) (by omega)]
  | app f a ihf iha => simp only [Lambda.shift, delaySelf, ihf hc hj, iha hc hj]

theorem delaySelf_shift (t : Lambda) (hn : 0 ≤ n) (hc : c < j) :
    delaySelf (j + n) (t.shift n c) = (delaySelf j t).shift n c := by
  induction t generalizing c j with
  | var i =>
    by_cases hi : i = j - 1
    · have hself : i + n = j + n - 1 := by omega
      rw [shift_var_of_le (by omega), hself, delaySelf_var_self, hi,
        delaySelf_var_self, Lambda.shift, shift_var_of_le (by omega)]
    · rw [delaySelf_var_of_ne hi]
      by_cases h : c ≤ i
      · rw [shift_var_of_le h, delaySelf_var_of_ne (by omega)]
      · rw [shift_var_of_lt (by omega), delaySelf_var_of_ne (by omega)]
  | abs b ih =>
    have h := ih (by omega : c + 1 < j + 1)
    have hj : j + 1 + n = j + n + 1 := by omega
    rw [hj] at h
    simp only [Lambda.shift, delaySelf, h]
  | app f a ihf iha => simp only [Lambda.shift, delaySelf, ihf hc, iha hc]

theorem subst_delaySelf (t v : Lambda) (hj : 0 < j) (hd : j ≤ d) :
    subst d v (delaySelf j t) = delaySelf j (subst d v t) := by
  induction t generalizing j d with
  | var i =>
    by_cases hi : i = j - 1
    · rw [hi, delaySelf_var_self, subst_var_of_lt v (by omega), delaySelf_var_self, subst,
        subst_var_of_lt v (by omega)]
    · rw [delaySelf_var_of_ne hi]
      obtain h | rfl | h := Int.lt_trichotomy i d
      · rw [subst_var_of_lt v h, delaySelf_var_of_ne hi]
      · rw [subst_var_self, delaySelf_shift_gap v hj (by omega)]
      · rw [subst_var_of_gt v h, delaySelf_var_of_ne (by omega)]
  | abs b ih => simp only [subst, delaySelf, ih (by omega : 0 < j + 1) (by omega : j + 1 ≤ d + 1)]
  | app f a ihf iha => simp only [subst, delaySelf, ihf hj hd, iha hj hd]

/-- A substitution inside a thunk may put further references to the record. -/
theorem delaySelf_subst (t v : Lambda) (hj : 0 < j) (hd : 0 ≤ d) :
    delaySelf (j + d) (subst d v t) = subst d (delaySelf j v) (delaySelf (j + d + 1) t) := by
  induction t generalizing d with
  | var i =>
    obtain h | rfl | h := Int.lt_trichotomy i d
    · rw [subst_var_of_lt v h, delaySelf_var_of_ne (by omega), delaySelf_var_of_ne (by omega),
        subst_var_of_lt _ h]
    · rw [subst_var_self, delaySelf_shift v hd hj, delaySelf_var_of_ne (by omega), subst_var_self]
    · rw [subst_var_of_gt v h]
      by_cases hi : i = j + d
      · have hbefore : delaySelf (j + d) (.var (i - 1)) = .abs (.var (j + d)) :=
          hi ▸ delaySelf_var_self _
        have hbehind : delaySelf (j + d + 1) (.var i) = .abs (.var (j + d + 1)) := by
          rw [hi, ← delaySelf_var_self, Int.add_sub_cancel]
        rw [hbefore, hbehind, subst, subst_var_of_gt _ (by omega), Int.add_sub_cancel]
      · rw [delaySelf_var_of_ne (by omega), delaySelf_var_of_ne (by omega), subst_var_of_gt _ h]
  | abs b ih =>
    have h := ih (by omega : 0 ≤ d + 1)
    rw [← Int.add_assoc] at h
    simp only [subst, delaySelf, h]
  | app f a ihf iha => simp only [subst, delaySelf, ihf hd, iha hd]

theorem delaySelf_beta (b a : Lambda) (hj : 0 < j) :
    delaySelf j (b.beta a) = (delaySelf (j + 1) b).beta (delaySelf j a) := by
  simpa [beta] using delaySelf_subst b a hj (Int.le_refl 0)

theorem contracts_delaySelf (hj : 0 < j) (h : Contracts t u) :
    Contracts (delaySelf j t) (delaySelf j u) := by
  induction h generalizing j with
  | beta b a =>
    rw [delaySelf_beta b a hj]
    exact .beta _ _
  | abs _ ih => exact .abs (ih (by omega))
  | fn a _ ih => exact .fn _ (ih hj)
  | arg f _ ih => exact .arg _ (ih hj)

theorem reduces_delaySelf (hj : 0 < j) (h : Reduces t u) :
    Reduces (delaySelf j t) (delaySelf j u) :=
  h.lift (delaySelf j) fun _ _ => contracts_delaySelf hj

theorem within_delaySelf {k m : Nat} (hm : 0 < m) (hk : m ≤ k) (h : t.Within k) :
    (delaySelf m t).Within k := by
  induction t generalizing k m with
  | var i =>
    by_cases hi : i = m - 1
    · rw [hi, delaySelf_var_self]
      exact ⟨by omega, by omega⟩
    · rw [delaySelf_var_of_ne hi]
      exact h
  | abs b ih => exact ih (k := k + 1) (m := m + 1) (by omega) (by omega) h
  | app f a ihf iha => exact ⟨ihf hm hk h.1, iha hm hk h.2⟩

end SugaredLambda.Church
