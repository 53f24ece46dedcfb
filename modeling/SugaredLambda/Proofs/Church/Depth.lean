import SugaredLambda.Proofs.Church.Congruence

/-! Encodings are well scoped, and more binders around the scope only shift them. -/
namespace SugaredLambda

namespace Lambda

/-- Only some variables escape a term and `k` binders around it, and none is negative. -/
def EscapesTo (s : Nat → Prop) (k : Nat) (t : Lambda) : Prop := t.Nonneg ∧ ∀ m ∈ t.free k, s m

theorem within_iff {t : Lambda} {k : Nat} : t.Within k ↔ t.Nonneg ∧ t.free k = [] := by
  induction t generalizing k with
  | var i =>
    rw [Within, Nonneg, free]
    split
    next h => exact ⟨fun hi => absurd h (by omega), fun hi => absurd hi.2 (List.cons_ne_nil _ _)⟩
    next h => exact ⟨fun hi => ⟨hi.1, rfl⟩, fun hi => ⟨hi.1, by omega⟩⟩
  | abs b ih => exact ih
  | app f a ihf iha => rw [Within, Nonneg, free, ihf, iha, List.append_eq_nil_iff, and_and_and_comm]

end Lambda

namespace Church
open Lambda
variable {t : Lambda} {n c j : Int} {k : Nat}

theorem shift_delaySelf (t : Lambda) (hn : 0 ≤ n) (hc : j ≤ c) :
    (delaySelf j t).shift n c = delaySelf j (t.shift n c) := by
  induction t generalizing c j with
  | var i =>
    by_cases hi : i = j - 1
    · subst hi
      have hself : (var (j - 1)).shift n c = var (j - 1) := shift_var_of_lt (by omega)
      rw [hself, delaySelf_var_self, Lambda.shift, shift_var_of_lt (by omega)]
    · rw [delaySelf_var_of_ne hi]
      by_cases h : c ≤ i
      · rw [shift_var_of_le h, delaySelf_var_of_ne (by omega)]
      · rw [shift_var_of_lt (by omega), delaySelf_var_of_ne hi]
  | abs b ih => simp only [Lambda.shift, delaySelf, ih (by omega : j + 1 ≤ c + 1)]
  | app f a ihf iha => simp only [Lambda.shift, delaySelf, ihf hc, iha hc]

theorem free_delaySelf (t : Lambda) (hk : j ≤ k) : (delaySelf j t).free k = t.free k := by
  induction t generalizing j k with
  | var i =>
    by_cases hi : i = j - 1
    · rw [hi, delaySelf_var_self, free, free, if_neg (by omega), free, if_neg (by omega)]
    · rw [delaySelf_var_of_ne hi]
  | abs b ih => exact ih (by omega)
  | app f a ihf iha => rw [delaySelf, free, ihf hk, iha hk, free]

theorem nonneg_delaySelf (hj : 0 ≤ j) (h : t.Nonneg) : (delaySelf j t).Nonneg := by
  induction t generalizing j with
  | var i =>
    by_cases hi : i = j - 1
    · rw [hi, delaySelf_var_self]
      exact hj
    · rwa [delaySelf_var_of_ne hi]
  | abs b ih => exact ih (j := j + 1) (by omega) h
  | app f a ihf iha => exact ⟨ihf hj h.1, iha hj h.2⟩

theorem congruence_shift (n : Nat) : Congruence fun k t u => t.shift n k = u where
  bound h := shift_var_of_lt (Int.ofNat_lt.2 h)
  deeper {k i j} h := by
    by_cases hi : (k : Int) ≤ i
    · rw [shift_var_of_le hi] at h
      obtain rfl := Lambda.var.inj h
      rw [shift_var_of_le (by omega), Int.add_right_comm]
    · rw [shift_var_of_lt (by omega)] at h
      obtain rfl := Lambda.var.inj h
      exact shift_var_of_lt (by omega)
  abs h := congrArg Lambda.abs h
  app hf ha := congrArg₂ Lambda.app hf ha
  delay {k t u} h := by rw [shift_delaySelf t (by omega) (by omega), h]

theorem congruence_escapesTo (s : Nat → Prop) : Congruence fun k t _ => t.EscapesTo s k where
  bound {k i} h := by
    refine ⟨Int.natCast_nonneg i, fun m hm => ?_⟩
    rw [free, if_neg (by omega)] at hm
    exact absurd hm List.not_mem_nil
  deeper {k i j} h := by
    have hfree : (var (i + 1)).free (k + 1) = (var i).free k := by simp [free]
    exact ⟨Int.add_nonneg h.1 Int.one_nonneg, hfree ▸ h.2⟩
  abs h := h
  app hf ha := ⟨⟨hf.1, ha.1⟩, List.forall_mem_append.2 ⟨hf.2, ha.2⟩⟩
  delay {k t u} h :=
    ⟨nonneg_delaySelf Int.one_nonneg h.1, by rw [free_delaySelf t (by omega)]; exact h.2⟩

variable {scope : Scope} {depth : Int} {l : Lambda}

/-- With `k` more binders around it, a term is encoded as before, shifted by `k`, or fails
as before. -/
theorem encode_deeper (hscope : ∀ x i, scope.lookup x = some i → i < depth) (t : Term) (k : Nat) :
    encode t scope (depth + k) = (Lambda.shift k 0) <$> encode t scope depth := by
  have hsees :
      Sees (fun m t u => t.shift k m = u) 0 t.demanded scope depth scope (depth + k) := fun x _ =>
    alike_reference (r := fun m t u => t.shift k m = u) (k := 0) rfl fun i hi => by
      have hlt := hscope x i hi
      rw [shift_var_of_le (by omega)]
      congr 1
      omega
  rw [encode, encode]
  split
  · rfl
  · exact (likened_self (congruence_shift k) t hsees).eq_map

theorem escapesTo_encode (hscope : ∀ x i, scope.lookup x = some i → i < depth) {t : Term}
    (h : encode t scope depth = .ok l) :
    l.EscapesTo (fun m => ∃ x i, scope.lookup x = some i ∧ (m : Int) = depth - i - 1) 0 := by
  have hsees : Sees (fun k t _ => t.EscapesTo (fun m => ∃ x i, scope.lookup x = some i ∧
      (m : Int) = depth - i - 1) k) 0 t.demanded scope depth scope depth := fun x _ => by
    refine alike_reference (r := fun k t _ => t.EscapesTo _ k) (k := 0) rfl fun i hi => ?_
    have hlt := hscope x i hi
    refine ⟨by rw [Nonneg]; omega, fun m hm => ⟨x, i, hi, ?_⟩⟩
    rw [free, if_pos (by omega), List.mem_singleton] at hm
    omega
  rw [encode] at h
  split at h
  · cases h
  · have halike := likened_self (congruence_escapesTo _) t hsees
    change place t scope depth = .ok l at h
    rw [h] at halike
    exact halike.of_ok

/-- Encodings are well scoped, closed ones closed, and keep their shape at every greater depth. -/
theorem encode_deeper_scoped (hscope : ∀ x i, scope.lookup x = some i → i < depth) {t : Term}
    (h : encode t scope depth = .ok l) :
    l.Nonneg ∧ (∀ m ∈ l.free 0, ∃ x i, scope.lookup x = some i ∧ (m : Int) = depth - i - 1) ∧
    (scope = [] → l.Within 0) ∧ ∀ k : Nat, encode t scope (depth + k) = .ok (l.shift k 0) := by
  obtain ⟨hnonneg, hfree⟩ := escapesTo_encode hscope h
  refine ⟨hnonneg, hfree, fun hnil => within_iff.2 ⟨hnonneg, ?_⟩, fun k => ?_⟩
  · refine List.eq_nil_iff_forall_not_mem.2 fun m hm => ?_
    obtain ⟨x, i, hx, -⟩ := hfree m hm
    rw [hnil] at hx
    cases hx
  · rw [encode_deeper hscope t k, h]
    rfl

theorem encode_deeper_scoped_nested :
    let scope : Scope := [("y", 1), ("x", 0)]
    let l : Lambda := .abs (.abs (.apply (.var 1)
      [.var 3, .apply (.var 1) [.abs (.app (.var 0) (.var 3)), .var 0]]))
    (∀ x i, scope.lookup x = some i → i < 2) ∧
    encode (.list [.var "x", .tuple [.var "y"]]) scope 2 = .ok l ∧
    (∀ m ∈ l.free 0, ∃ x i, scope.lookup x = some i ∧ (m : Int) = 2 - i - 1) ∧
    encode (.list [.var "x", .tuple [.var "y"]]) scope (2 + (3 : Nat)) = .ok (l.shift 3 0) := by
  intro scope l
  have hscope : ∀ x i, scope.lookup x = some i → i < 2 := fun x i h => by
    rcases (List.mem_pair.1 (mem_of_lookup h)).imp Prod.mk.inj Prod.mk.inj with ⟨-, rfl⟩ | ⟨-, rfl⟩
    · decide
    · decide
  have hencode : encode (.list [.var "x", .tuple [.var "y"]]) scope 2 = .ok l := rfl
  obtain ⟨-, hfree, -, hshift⟩ := encode_deeper_scoped hscope hencode
  exact ⟨hscope, hencode, hfree, hshift 3⟩

end Church
end SugaredLambda
