import SugaredLambda.Error
import SugaredLambda.Term.Fold

/-! The written form of a term. `print` writes blocks of definitions in braces and refuses tagged
records; `layout` writes them below the body instead, one indented line each. -/
namespace SugaredLambda.Term

/-- A name and its parameters, as they head a definition. -/
def heading (name : String) (params : List String) : List Char :=
  [' '].intercalate ((name :: params).map (·.toList)) ++ " = ".toList

def defined (b : Binding (List Char)) : List Char :=
  heading b.name b.params ++ b.body ++ "; ".toList

/-- A record has no written form: `print` does not come this far with one. -/
def printer : Algebra (List Char) where
  abs ps b := '(' :: [' '].intercalate (ps.map (·.toList)) ++ " -> ".toList ++ b ++ [')']
  app ts := '(' :: [' '].intercalate ts ++ [')']
  var x := x.toList
  nat n := Nat.toDigits 10 n
  list ts := '[' :: [','].intercalate ts ++ [']']
  tuple ts := '(' :: [','].intercalate ts ++ [')']
  char s := '\'' :: s.toList ++ ['\'']
  str s := '"' :: s.toList ++ ['"']
  word n := '#' :: Nat.toDigits 10 n
  record _ := []
  letIn bs b := '{' :: (if bs.isEmpty then "; ".toList else bs.flatMap defined) ++ b ++ ['}']

def chars : Term → List Char := fold printer

def print (t : Term) : Except Error String :=
  if t.hasRecord then throw .recordPrinting else return String.ofList t.chars

def indentWidth : Nat := 4

/-- A new line, indented for the definitions of a term at depth `d`. -/
def indentation (d : Nat) : List Char := '\n' :: List.replicate ((d+1) * indentWidth) ' '

mutual

def layout (d : Nat) : Term → List Char
  | .letIn (⟨x, ps, t⟩ :: bs) b =>
    b.chars ++ indentation d ++ heading x ps ++ t.layout (d+1) ++ layoutBindings d bs
  | t => t.chars

def layoutBindings (d : Nat) : List (Binding Term) → List Char
  | [] => []
  | ⟨x, ps, t⟩ :: bs => indentation d ++ heading x ps ++ t.layout (d+1) ++ layoutBindings d bs

end

end SugaredLambda.Term
