import SugaredLambda.Lambda.Subst

/-! Reduction to normal form, leftmost redex first, within a limit on the number of contractions.
`headNormal` contracts until the head of the nest of applications is no redex, and `normal` then
goes on inside what is left, from left to right. -/
namespace SugaredLambda.Lambda

/-- Contracts the redex at the head of a nest of applications, where there is one. -/
def contractHead : Lambda → Option Lambda
  | .app (.abs b) a => some (b.beta a)
  | .app f a => f.contractHead.map (.app · a)
  | _ => none

/-- The term once its head is no redex, with what is left of the limit; none when it is too low. -/
def headNormal : Nat → Lambda → Option (Lambda × Nat)
  | 0, t => if t.contractHead.isSome then none else some (t, 0)
  | limit+1, t =>
    match t.contractHead with
    | none => some (t, limit+1)
    | some u => headNormal limit u

theorem headNormal_le {limit left : Nat} {t u : Lambda} (h : headNormal limit t = some (u, left)) :
    left ≤ limit := by
  fun_induction headNormal limit t with
  | case1 => simp at h
  | case2 => simp_all
  | case3 => simp_all
  | case4 limit t u' _ ih => have := ih h; omega

/-- Nothing spent, nothing changed. -/
theorem eq_of_headNormal_same {limit : Nat} {t u : Lambda}
    (h : headNormal limit t = some (u, limit)) : u = t := by
  cases limit with
  | zero => grind [headNormal]
  | succ n =>
    rw [headNormal] at h
    split at h
    · simp_all
    · have := headNormal_le h; omega

theorem headNormal_decreases {limit left : Nat} {t u : Lambda}
    (h : headNormal limit t = some (u, left)) : left < limit ∨ left = limit ∧ u = t := by
  rcases Nat.lt_or_eq_of_le (headNormal_le h) with hlt | rfl
  · exact .inl hlt
  · exact .inr ⟨rfl, eq_of_headNormal_same h⟩

private theorem normal_decreases {limit left k : Nat} {t u s : Lambda}
    (h : headNormal limit t = some (u, left)) (hs : s.size < u.size) :
    Prod.Lex (· < ·) (· < ·) (left - k, s.size) (limit, t.size) := by
  rcases headNormal_decreases h with hlt | ⟨rfl, rfl⟩
  · exact .left _ _ (by omega)
  · rcases Nat.lt_or_eq_of_le (Nat.sub_le left k) with hk | hk
    · exact .left _ _ hk
    · rw [hk]; exact .right _ hs

/-- The normal form and the number of contractions that lead to it; none when the limit is
too low. -/
def normal (limit : Nat) (t : Lambda) : Option (Lambda × Nat) :=
  match _h : headNormal limit t with
  | none => none
  | some (.var i, left) => some (.var i, limit - left)
  | some (.abs b, left) => do
    let (b', k) ← normal left b
    return (.abs b', limit - left + k)
  | some (.app f a, left) => do
    let (f', k) ← normal left f
    let (a', l) ← normal (left - k) a
    return (.app f' a', limit - left + k + l)
termination_by (limit, t.size)
decreasing_by
  · exact normal_decreases (k := 0) _h (by simp only [size]; omega)
  · exact normal_decreases (k := 0) _h (by simp only [size]; omega)
  · exact normal_decreases _h (by simp only [size]; omega)

/-! The recursion, by what the head comes to. -/
section
variable {limit left : Nat} {t b f a : Lambda}

theorem normal_of_headNormal_none (h : headNormal limit t = none) : normal limit t = none := by
  rw [normal]
  split <;> simp_all

theorem normal_of_headNormal_var {i : Int} (h : headNormal limit t = some (.var i, left)) :
    normal limit t = some (.var i, limit - left) := by
  rw [normal]
  split <;> simp_all

theorem normal_of_headNormal_abs (h : headNormal limit t = some (.abs b, left)) :
    normal limit t = (normal left b).map fun r => (.abs r.1, limit - left + r.2) := by
  rw [normal]
  split <;> rename_i hh <;> rw [h] at hh <;> cases hh
  cases normal left b <;> rfl

theorem normal_of_headNormal_app (h : headNormal limit t = some (.app f a, left)) :
    normal limit t = (normal left f).bind fun r => (normal (left - r.2) a).map fun s =>
      (.app r.1 s.1, limit - left + r.2 + s.2) := by
  rw [normal]
  split <;> rename_i hh <;> rw [h] at hh <;> cases hh
  cases normal left f with
  | none => rfl
  | some r => cases hs : normal (left - r.2) a <;> simp [hs]

end

end SugaredLambda.Lambda
