/-! Names for binders by their depth: the words over a..z, shorter ones first. -/
namespace SugaredLambda.Church

def letter (n : Nat) : Char := Char.ofNat ('a'.toNat + n)

/-- The `n`th word, counted from one, in front of a text. -/
def wordBefore (n : Nat) (rest : List Char) : List Char :=
  if n = 0 then rest else wordBefore ((n - 1) / 26) (letter ((n - 1) % 26) :: rest)
termination_by n
decreasing_by omega

def binderName (depth : Nat) : String := String.ofList (wordBefore (depth + 1) [])

/-- The name of a variable under `depth` binders; one that escapes them all is `$0`, `$1`, .... -/
def variableName (index : Int) (depth : Nat) : String :=
  match depth - index - 1 with
  | .ofNat binder => binderName binder
  | .negSucc k => String.ofList ('$' :: Nat.toDigits 10 k)

end SugaredLambda.Church
