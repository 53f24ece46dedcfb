import SugaredLambda.Church.Decoding
import SugaredLambda.Church.Encoding
import SugaredLambda.Lambda.Reduction

/-! Evaluation: a closed term is encoded, reduced, and read back. -/
namespace SugaredLambda

def Lambda.normalize (limit : Nat) (t : Lambda) : Except Error Lambda :=
  match t.normal limit with
  | some (u, _) => return u
  | none => throw (.stepLimit limit)

namespace Term

/-- A program, in which no name is bound from outside. -/
def encoded (t : Term) : Except Error Lambda := Church.encode t [] 0

def evaluateBy (normalize : Lambda → Except Error Lambda) (t : Term) : Except Error Term := do
  return Church.decode (← normalize (← t.encoded))

def evaluate (limit : Nat) : Term → Except Error Term := evaluateBy (Lambda.normalize limit)

end Term
end SugaredLambda
