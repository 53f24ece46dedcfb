import SugaredLambda.Lambda.Reduction

/-! Reduction for as long as it takes, which may be for ever. -/
namespace SugaredLambda.Command

/-- Doubles the limit until it is high enough. -/
partial def normalFrom (limit : Nat) (t : Lambda) : Lambda × Nat :=
  match t.normal limit with
  | some found => found
  | none => normalFrom (2*limit) t

def normalUnbounded (t : Lambda) : Lambda × Nat := normalFrom 65536 t

end SugaredLambda.Command
