/-! Sets of characters as ascending ranges of code points, both ends included. -/
namespace SugaredLambda.Text

/-- Stops at the first range that begins beyond the number. -/
def inRanges (n : Nat) : List (Nat × Nat) → Bool
  | [] => false
  | (low, high) :: rest => if n < low then false else n ≤ high || inRanges n rest

end SugaredLambda.Text
