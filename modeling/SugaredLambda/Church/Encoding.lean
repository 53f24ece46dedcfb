import SugaredLambda.Bits
import SugaredLambda.Error
import SugaredLambda.Lambda.Basic
import SugaredLambda.Term.Fold

/-! Terms as nameless terms. A number iterates a function, a list is its own right fold, a
tuple hands its items to a consumer, a bit selects one of two, and characters and words are
tuples of bits. -/
namespace SugaredLambda.Church

/-- The depth of the binder that introduced each name, newest first. -/
abbrev Scope := List (String × Int)

/-- A term that waits for the scope and the binder depth at which it is placed. -/
abbrev Placing := Scope → Int → Except Error Lambda

def bit (b : Bool) : Lambda := .abs (.abs (.var (if b then 0 else 1)))

def iterate : Nat → Lambda
  | 0 => .var 0
  | n+1 => .app (.var 1) (iterate n)

def numeral (n : Nat) : Lambda := .abs (.abs (iterate n))

def cells : List Lambda → Lambda
  | [] => .var 0
  | item :: items => .app (.app (.var 1) item) (cells items)

/-- The items stand two binders deeper than the list. -/
def foldList (items : List Lambda) : Lambda := .abs (.abs (cells items))

/-- The items stand one binder deeper than the tuple. -/
def consumed (items : List Lambda) : Lambda := .abs (Lambda.apply (.var 0) items)

def bitTuple (value width : Nat) : Lambda := consumed ((Bits.toBits value width).map bit)

def character (c : Char) : Lambda := bitTuple c.toNat Bits.charWidth

def onlyChar (s : String) : Char := s.toList.headD '\x00'

def word (n : Nat) : Lambda := bitTuple n Bits.wordWidth

/-- Characters are closed, so that their depth does not matter. -/
def string (s : String) : Lambda := foldList (s.toList.map character)

/-- A later parameter of the same name hides an earlier one. -/
def enter : List String → Scope → Int → Scope
  | [], scope, _ => scope
  | p :: params, scope, depth => enter params ((p, depth) :: scope) (depth + 1)

def function (params : List String) (body : Placing) : Placing := fun scope depth =>
  return Lambda.binders params.length (← body (enter params scope depth) (depth + params.length))

/-- A variable counts the binders between itself and the one that its name stands for. -/
def reference (x : String) : Placing := fun scope depth =>
  match scope.lookup x with
  | some binder => return .var (depth - binder - 1)
  | none => throw (.unbound x)

def application : List Placing → Placing
  | [], _, _ => throw .emptyApplication
  | fn :: args, scope, depth => do
    let f ← fn scope depth
    return f.apply (← args.mapM (· scope depth))

/-- `x = value; rest` is `(λ rest) value`, the value outside the scope of its own name. -/
def block : List (Binding Placing) → Placing → Placing
  | [], body, scope, depth => body scope depth
  | b :: bs, body, scope, depth => do
    let value ← function b.params b.body scope depth
    let rest ← block bs body ((b.name, depth) :: scope) (depth + 1)
    return .app (.abs rest) value

/-- The name by which a field refers to the record that is being built. -/
def selfName : String := "#"

/-- Puts `λ_. self` for each reference to the outermost binder of a thunk. -/
def delaySelf (depth : Int) : Lambda → Lambda
  | .var i => if i = depth - 1 then .abs (.var (i + 1)) else .var i
  | .abs b => .abs (delaySelf (depth + 1) b)
  | .app f a => .app (delaySelf depth f) (delaySelf depth a)

def thunk (body : Lambda) : Lambda := delaySelf 0 (.abs (.app body (.var 7)))

/-- A field stands under eight binders: the consumer of the record, two of the list of constructors,
one of the pair of a constructor, two of the list of fields, one of the pair of a field, and the
record itself, bound by the thunk. -/
def field (scope : Scope) (depth : Int) (x : Field Placing) : Except Error Lambda := do
  let body ← x.body ((selfName, depth + 7) :: scope) (depth + 8)
  return consumed [string x.name, thunk body]

def constructor (scope : Scope) (depth : Int) (c : Constructor Placing) : Except Error Lambda := do
  let fields ← c.fields.mapM (field scope depth)
  return consumed [string c.name, foldList fields]

def record (ctors : List (Constructor Placing)) : Placing := fun scope depth => do
  let ctors ← ctors.mapM (constructor scope depth)
  return consumed [foldList ctors]

def placer : Term.Algebra Placing where
  abs := function
  app := application
  var := reference
  nat n _ _ := return numeral n
  list ts scope depth := return foldList (← ts.mapM (· scope (depth + 2)))
  tuple ts scope depth := return consumed (← ts.mapM (· scope (depth + 1)))
  char s _ _ := return character (onlyChar s)
  str s _ _ := return string s
  word n _ _ := return word n
  record := record
  letIn := block

/-- An empty application is an error wherever it stands, before any name is looked up. -/
def encode (t : Term) (scope : Scope) (depth : Int) : Except Error Lambda :=
  if t.hasEmptyApplication then throw .emptyApplication else t.fold placer scope depth

end SugaredLambda.Church
