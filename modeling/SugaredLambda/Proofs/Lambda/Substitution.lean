import SugaredLambda.Lambda.Subst

/-! How shifts and substitutions pass each other, for indices of any sign. -/
namespace SugaredLambda.Lambda
variable {i m n c d : Int}

theorem shift_var_of_le (h : c ≤ i) : (var i).shift n c = var (i + n) := by simp [shift, h]

theorem shift_var_of_lt (h : i < c) : (var i).shift n c = var i := by
  simp [shift, Int.not_le.2 h]

theorem subst_var_self (v : Lambda) : subst d v (var d) = v.shift d 0 := by simp [subst]

theorem subst_var_of_lt (v : Lambda) (h : i < d) : subst d v (var i) = var i := by
  simp [subst, Int.ne_of_lt h, Int.not_lt.2 (Int.le_of_lt h)]

theorem subst_var_of_gt (v : Lambda) (h : d < i) : subst d v (var i) = var (i - 1) := by
  simp [subst, Int.ne_of_gt h, h]

/-- A second shift whose cutoff lies in the gap that the first has opened only widens it. -/
theorem shift_shift (t : Lambda) (hc : c ≤ d) (hd : d ≤ c + m) :
    (t.shift m c).shift n d = t.shift (m + n) c := by
  induction t generalizing c d with
  | var i =>
    by_cases h : c ≤ i
    · rw [shift_var_of_le h, shift_var_of_le h, shift_var_of_le (by omega), Int.add_assoc]
    · rw [shift_var_of_lt (by omega), shift_var_of_lt (by omega), shift_var_of_lt (by omega)]
  | abs b ih => simp only [shift, ih (by omega : c + 1 ≤ d + 1) (by omega)]
  | app f a ihf iha => simp only [shift, ihf hc hd, iha hc hd]

theorem shift_shift_comm (t : Lambda) (hm : 0 ≤ m) (hn : 0 ≤ n) (hc : c ≤ d) :
    (t.shift m d).shift n c = (t.shift n c).shift m (d + n) := by
  induction t generalizing c d with
  | var i =>
    by_cases hd : d ≤ i
    · rw [shift_var_of_le hd, shift_var_of_le (by omega), shift_var_of_le (by omega),
        shift_var_of_le (by omega), Int.add_right_comm]
    · rw [shift_var_of_lt (by omega : i < d)]
      by_cases h : c ≤ i
      · rw [shift_var_of_le h, shift_var_of_lt (by omega)]
      · rw [shift_var_of_lt (by omega), shift_var_of_lt (by omega)]
  | abs b ih =>
    have h := ih (by omega : c + 1 ≤ d + 1)
    have hd : d + 1 + n = d + n + 1 := by omega
    simp only [shift, h, hd]
  | app f a ihf iha => simp only [shift, ihf hc, iha hc]

/-- A substitution fills one place of a gap that a shift has opened. -/
theorem subst_shift (t v : Lambda) (hc : c ≤ d) (hd : d ≤ c + n) :
    subst d v (t.shift (n + 1) c) = t.shift n c := by
  induction t generalizing c d with
  | var i =>
    by_cases h : c ≤ i
    · rw [shift_var_of_le h, shift_var_of_le h, subst_var_of_gt v (by omega)]
      congr 1; omega
    · rw [shift_var_of_lt (by omega), shift_var_of_lt (by omega), subst_var_of_lt v (by omega)]
  | abs b ih => simp only [shift, subst, ih (by omega : c + 1 ≤ d + 1) (by omega)]
  | app f a ihf iha => simp only [shift, subst, ihf hc hd, iha hc hd]

theorem shift_subst_of_le (t v : Lambda) (h0 : 0 ≤ c) (hn : 0 ≤ n) (hc : c ≤ d) :
    (subst d v t).shift n c = subst (d + n) v (t.shift n c) := by
  induction t generalizing c d with
  | var i =>
    obtain hi | rfl | hi := Int.lt_trichotomy i d
    · rw [subst_var_of_lt v hi]
      by_cases h : c ≤ i
      · rw [shift_var_of_le h, subst_var_of_lt v (by omega)]
      · rw [shift_var_of_lt (by omega), subst_var_of_lt v (by omega)]
    · rw [subst_var_self, shift_var_of_le hc, subst_var_self, shift_shift v h0 (by omega)]
    · rw [subst_var_of_gt v hi, shift_var_of_le (by omega), shift_var_of_le (by omega),
        subst_var_of_gt v (by omega)]
      congr 1; omega
  | abs b ih =>
    have h := ih (by omega : 0 ≤ c + 1) (by omega : c + 1 ≤ d + 1)
    have hd : d + 1 + n = d + n + 1 := by omega
    simp only [shift, subst, h, hd]
  | app f a ihf iha => simp only [shift, subst, ihf h0 hc, iha h0 hc]

theorem shift_subst_of_ge (t v : Lambda) (h0 : 0 ≤ d) (hn : 0 ≤ n) (hc : d ≤ c) :
    (subst d v t).shift n c = subst d (v.shift n (c - d)) (t.shift n (c + 1)) := by
  induction t generalizing c d with
  | var i =>
    obtain hi | rfl | hi := Int.lt_trichotomy i d
    · rw [subst_var_of_lt v hi, shift_var_of_lt (by omega), shift_var_of_lt (by omega),
        subst_var_of_lt _ hi]
    · have hv := shift_shift_comm v hn h0 (by omega : 0 ≤ c - i)
      rw [subst_var_self, shift_var_of_lt (by omega), subst_var_self, hv, Int.sub_add_cancel]
    · rw [subst_var_of_gt v hi]
      by_cases h : c + 1 ≤ i
      · rw [shift_var_of_le h, shift_var_of_le (by omega), subst_var_of_gt _ (by omega)]
        congr 1; omega
      · rw [shift_var_of_lt (by omega), shift_var_of_lt (by omega), subst_var_of_gt _ hi]
  | abs b ih =>
    have h := ih (by omega : 0 ≤ d + 1) (by omega : d + 1 ≤ c + 1)
    have hgap : c + 1 - (d + 1) = c - d := by omega
    simp only [shift, subst, h, hgap]
  | app f a ihf iha => simp only [shift, subst, ihf h0 hc, iha h0 hc]

/-- Two substitutions change places when the outer one also goes into what the inner one puts. -/
theorem subst_subst {k : Int} (t v w : Lambda) (h0 : 0 ≤ d) (hk : 0 ≤ k) :
    subst (d + k) w (subst d v t) = subst d (subst k w v) (subst (d + k + 1) w t) := by
  induction t generalizing d with
  | var i =>
    obtain hi | rfl | hi := Int.lt_trichotomy i d
    · rw [subst_var_of_lt v hi, subst_var_of_lt w (by omega), subst_var_of_lt w (by omega),
        subst_var_of_lt _ hi]
    · rw [subst_var_self, subst_var_of_lt w (by omega), subst_var_self, Int.add_comm i k,
        ← shift_subst_of_le v w (Int.le_refl 0) h0 hk]
    · rw [subst_var_of_gt v hi]
      obtain hw | rfl | hw := Int.lt_trichotomy i (d + k + 1)
      · rw [subst_var_of_lt w (by omega), subst_var_of_lt w hw, subst_var_of_gt _ hi]
      · rw [Int.add_sub_cancel, subst_var_self, subst_var_self, subst_shift w _ h0 (by omega)]
      · rw [subst_var_of_gt w (by omega), subst_var_of_gt w hw, subst_var_of_gt _ (by omega)]
  | abs b ih =>
    have h := ih (by omega : 0 ≤ d + 1)
    have hd : d + 1 + k = d + k + 1 := by omega
    rw [hd] at h
    simp only [subst, h]
  | app f a ihf iha => simp only [subst, ihf h0, iha h0]

theorem shift_beta (b a : Lambda) (hn : 0 ≤ n) (hc : 0 ≤ c) :
    (b.beta a).shift n c = (b.shift n (c + 1)).beta (a.shift n c) := by
  simpa [beta] using shift_subst_of_ge b a (Int.le_refl 0) hn hc

theorem subst_beta (b a v : Lambda) (hd : 0 ≤ d) :
    subst d v (b.beta a) = (subst (d + 1) v b).beta (subst d v a) := by
  simpa [beta] using subst_subst b a v (Int.le_refl 0) hd

end SugaredLambda.Lambda
