import SugaredLambda.Proofs.Lambda.Substitution

/-! Shift and substitution as one traversal, with two stacks and without recursion into the term. -/
namespace SugaredLambda.Lambda
variable {onVar : Int → Nat → Lambda}

def mapVars (onVar : Int → Nat → Lambda) (above : Nat) : Lambda → Lambda
  | .var i => onVar i above
  | .abs b => .abs (b.mapVars onVar (above + 1))
  | .app f a => .app (f.mapVars onVar above) (a.mapVars onVar above)

/-- A term still to enter, or a node whose parts are done. -/
inductive Visit where
  | enter (t : Lambda) (above : Nat)
  | abs
  | app

namespace Visit

def weight : List Visit → Nat
  | [] => 0
  | .enter t _ :: todo => 2 * t.size + weight todo
  | _ :: todo => weight todo + 1

end Visit

/-- The last part done comes first. A node takes its parts up again, the argument before
the function. -/
def traverse (onVar : Int → Nat → Lambda) : List Visit → List Lambda → List Lambda
  | [], done => done
  | .enter (.var i) above :: todo, done => traverse onVar todo (onVar i above :: done)
  | .enter (.abs b) above :: todo, done =>
    traverse onVar (.enter b (above + 1) :: .abs :: todo) done
  | .enter (.app f a) above :: todo, done =>
    traverse onVar (.enter f above :: .enter a above :: .app :: todo) done
  | .abs :: todo, b :: done => traverse onVar todo (.abs b :: done)
  | .app :: todo, a :: f :: done => traverse onVar todo (.app f a :: done)
  -- parts are done before their node, so that neither comes up
  | .abs :: todo, [] => traverse onVar todo []
  | .app :: todo, done => traverse onVar todo done
termination_by todo => Visit.weight todo
decreasing_by
  · simp [Visit.weight, size]
  · simp [Visit.weight, size]; omega
  · simp [Visit.weight, size]; omega
  · simp [Visit.weight]
  · simp [Visit.weight]
  · simp [Visit.weight]
  · simp [Visit.weight]

theorem traverse_enter (t : Lambda) (above : Nat) (todo : List Visit) (done : List Lambda) :
    traverse onVar (.enter t above :: todo) done =
      traverse onVar todo (t.mapVars onVar above :: done) := by
  induction t generalizing above todo done with
  | var i => rw [traverse, mapVars]
  | abs b ih => rw [traverse, ih, traverse, mapVars]
  | app f a ihf iha => rw [traverse, ihf, iha, traverse, mapVars]

theorem traverse_term (t : Lambda) : traverse onVar [.enter t 0] [] = [t.mapVars onVar 0] := by
  rw [traverse_enter, traverse]

def shifted (n cutoff : Int) (i : Int) (above : Nat) : Lambda :=
  .var (if cutoff + above ≤ i then i + n else i)

/-- What a substitution puts for a variable; the value moves under the binders outside and above in
one shift. -/
def substituted (depth : Int) (value : Lambda) (i : Int) (above : Nat) : Lambda :=
  if i = depth + above then value.shift (depth + above) 0
    else .var (if depth + above < i then i - 1 else i)

theorem mapVars_shifted (n c : Int) (t : Lambda) (above : Nat) :
    t.mapVars (shifted n c) above = t.shift n (c + above) := by
  induction t generalizing above with
  | var i => rfl
  | abs b ih => rw [mapVars, ih, shift, Int.natCast_succ, Int.add_assoc]
  | app f a ihf iha => rw [mapVars, ihf, iha, shift]

theorem mapVars_substituted (d : Int) (v t : Lambda) (above : Nat) :
    t.mapVars (substituted d v) above = subst (d + above) v t := by
  induction t generalizing above with
  | var i => rfl
  | abs b ih => rw [mapVars, ih, subst, Int.natCast_succ, Int.add_assoc]
  | app f a ihf iha => rw [mapVars, ihf, iha, subst]

theorem traverse_shifted (n c : Int) (t : Lambda) :
    traverse (shifted n c) [.enter t 0] [] = [t.shift n c] := by
  rw [traverse_term, mapVars_shifted]
  simp

theorem traverse_substituted (d : Int) (v t : Lambda) :
    traverse (substituted d v) [.enter t 0] [] = [subst d v t] := by
  rw [traverse_term, mapVars_substituted]
  simp

theorem beta_shift (t v : Lambda) : (t.shift 1 0).beta v = t := by
  have hgap := subst_shift (n := 0) t v (Int.le_refl 0) (Int.le_refl 0)
  rw [shift_zero] at hgap
  exact hgap

/-- Substitutions, shifts and contractions pass each other, and the traversal computes both. -/
theorem traversals_exchange (t v w : Lambda) (k d c : Nat) :
    subst k w (subst 0 v t) = subst 0 (subst k w v) (subst (k + 1) w t) ∧
    (t.beta v).shift d c = (t.shift d (c + 1)).beta (v.shift d c) ∧
    (t.shift 1 0).beta v = t ∧
    traverse (substituted k w) [.enter t 0] [] = [subst k w t] ∧
    traverse (shifted d c) [.enter t 0] [] = [t.shift d c] := by
  refine ⟨?_, ?_, beta_shift t v, traverse_substituted k w t, traverse_shifted d c t⟩
  · exact subst_beta t v w (Int.natCast_nonneg k)
  · exact shift_beta t v (Int.natCast_nonneg d) (Int.natCast_nonneg c)

end SugaredLambda.Lambda
