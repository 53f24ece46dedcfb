import Mathlib.Algebra.Order.BigOperators.Group.List
import Mathlib.Algebra.Order.Ring.Nat
import SugaredLambda.Lambda.Basic

/-! Where the variables of a nameless term stand, counted from outside the term. -/
namespace SugaredLambda.Lambda
variable {t f a : Lambda}

def occurrences (k : Int) : Lambda → Nat
  | .var i => if i = k then 1 else 0
  | .abs b => b.occurrences (k + 1)
  | .app f a => f.occurrences k + a.occurrences k

/-- The variables that escape a term and `cutoff` binders around it. -/
def free (cutoff : Nat) : Lambda → List Nat
  | .var i => if cutoff ≤ i then [(i - cutoff).toNat] else []
  | .abs b => b.free (cutoff + 1)
  | .app f a => f.free cutoff ++ a.free cutoff

def Nonneg : Lambda → Prop
  | .var i => 0 ≤ i
  | .abs b => b.Nonneg
  | .app f a => f.Nonneg ∧ a.Nonneg

instance Nonneg.decidable : (t : Lambda) → Decidable t.Nonneg
  | .var i => inferInstanceAs (Decidable (0 ≤ i))
  | .abs b => decidable b
  | .app f a => @instDecidableAnd _ _ (decidable f) (decidable a)

def Closed (t : Lambda) : Prop := ∀ k : Nat, t.occurrences k = 0

theorem mem_free {cutoff k : Nat} : k ∈ t.free cutoff ↔ t.occurrences (cutoff + k) ≠ 0 := by
  induction t generalizing cutoff with
  | var i =>
    by_cases h : (cutoff : Int) ≤ i
    · simp only [free, h, ↓reduceIte, List.mem_singleton, occurrences]
      grind
    · simp only [free, h, ↓reduceIte, List.not_mem_nil, occurrences]
      grind
  | abs b ih =>
    have hk : (cutoff + 1 : Nat) + (k : Int) = cutoff + k + 1 := by omega
    rw [free, ih, occurrences, hk]
  | app f a ihf iha => rw [free, List.mem_append, ihf, iha, occurrences]; omega

/-- Induction over nests of applications as a whole. -/
@[elab_as_elim]
theorem spine_induction {motive : Lambda → Prop} (var : ∀ i, motive (.var i))
    (abs : ∀ b, motive b → motive (.abs b))
    (apply : ∀ head args, (∀ f a, head ≠ .app f a) → args ≠ [] → motive head →
      (∀ a ∈ args, motive a) → motive (head.apply args))
    (t : Lambda) : motive t := by
  have h : ∀ args, (∀ a ∈ args, motive a) → motive (t.apply args) := by
    induction t with
    | var i =>
      intro args hargs
      by_cases hnil : args = []
      · exact hnil ▸ var i
      · exact apply _ args (by simp) hnil (var i) hargs
    | abs b ih =>
      intro args hargs
      have hb : motive (.abs b) := abs b (ih [] (by simp))
      by_cases hnil : args = []
      · exact hnil ▸ hb
      · exact apply _ args (by simp) hnil hb hargs
    | app f a ihf iha =>
      intro args hargs
      exact ihf (a :: args) (List.forall_mem_cons.2 ⟨iha [] (by simp), hargs⟩)
  exact h [] (by simp)

theorem occurrences_apply (k : Int) (t : Lambda) (args : List Lambda) :
    (t.apply args).occurrences k = t.occurrences k + (args.map (occurrences k)).sum := by
  induction args generalizing t with
  | nil => rfl
  | cons a args ih =>
    rw [List.map_cons, List.sum_cons, ← Nat.add_assoc]
    exact ih (.app t a)

theorem nonneg_apply {args : List Lambda} :
    (t.apply args).Nonneg ↔ t.Nonneg ∧ ∀ a ∈ args, a.Nonneg := by
  induction args generalizing t with
  | nil => simp [apply]
  | cons a args ih =>
    rw [List.forall_mem_cons, ← and_assoc]
    exact ih (t := .app t a)

theorem occurrences_apply_eq_zero {k : Int} {args : List Lambda} :
    (t.apply args).occurrences k = 0 ↔ ∀ a ∈ t :: args, a.occurrences k = 0 := by
  rw [occurrences_apply, Nat.add_eq_zero_iff, List.forall_mem_cons,
    List.sum_eq_zero_iff_forall_eq_nat, List.forall_mem_map]

end SugaredLambda.Lambda
