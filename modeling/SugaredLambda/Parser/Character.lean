import SugaredLambda.Parser.Basic

/-! Parsers that look at the characters of the text. -/
namespace SugaredLambda.Parser
variable {κ ω : Type} [BEq κ] [Hashable κ]

def satisfy (test : Char → Bool) : Parser κ ω Char := fun text position => do
  reach position
  match text[position]? with
  | some c => return if test c then [(c, position + 1)] else []
  | none => return []

def char (c : Char) : Parser κ ω Char := satisfy (· == c)

def sharedLength (text : Array Char) (position : Nat) : List Char → Nat
  | [] => 0
  | c :: word => if text[position]? = some c then sharedLength text (position + 1) word + 1 else 0

def string (word : List Char) : Parser κ ω (List Char) := fun text position => do
  let shared := sharedLength text position word
  reach (position + shared)
  return if shared = word.length ∧ position ≤ text.size then [(word, position + shared)] else []

/-- The end of the longest run of characters that pass the test. -/
def runEnd (test : Char → Bool) (text : Array Char) (position : Nat) : Nat :=
  if h : position < text.size then
    if test text[position] then runEnd test text (position + 1) else position
  else position
termination_by text.size - position

theorem le_runEnd (test : Char → Bool) (text : Array Char) (position : Nat) :
    position ≤ runEnd test text position := by
  fun_induction runEnd test text position with
  | case1 position _ _ ih => omega
  | case2 => exact Nat.le_refl _
  | case3 => exact Nat.le_refl _

theorem runEnd_le (test : Char → Bool) {text : Array Char} {position : Nat}
    (h : position ≤ text.size) : runEnd test text position ≤ text.size := by
  fun_induction runEnd test text position with
  | case1 position _ _ ih => exact ih (by omega)
  | case2 => exact h
  | case3 => exact h

def slice (text : Array Char) (first last : Nat) : List Char := (text.extract first last).toList

/-- The longest run, which may be empty. -/
def longest (test : Char → Bool) : Parser κ ω (List Char) := fun text position => do
  let last := runEnd test text position
  reach last
  return [(slice text position last, last)]

/-- Every beginning of the longest run that is not empty, shortest first. -/
def runs (test : Char → Bool) : Parser κ ω (List Char) := fun text position => do
  let last := runEnd test text position
  reach last
  return (List.range' (position + 1) (last - position)).map fun i => (slice text position i, i)

end SugaredLambda.Parser
