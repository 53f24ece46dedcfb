import SugaredLambda.Bits
import SugaredLambda.Error
import SugaredLambda.Term.Equality

/-! Recognizers of encoded values in a term that has been read back. Each turns the shape it knows
into a literal and leaves all else alone. `Uses` counts the occurrences of each name. -/
namespace SugaredLambda.Church

abbrev Uses := List (String × Nat)

namespace Uses

def count (uses : Uses) (x : String) : Nat := (uses.lookup x).getD 0

def add (x : String) (n : Nat) : Uses → Uses
  | [] => [(x, n)]
  | (y, m) :: rest => if x = y then (y, m + n) :: rest else (y, m) :: add x n rest

def addAll (uses more : Uses) : Uses := more.foldl (fun u (x, n) => u.add x n) uses

/-- The smaller table goes into the larger. -/
def merge (uses more : Uses) : Uses :=
  if uses.length < more.length then more.addAll uses else uses.addAll more

end Uses

/-- `(a -> (b -> c))` is `(a b -> c)`. -/
def mergeParams : Term → Term
  | .abs ps (.abs qs b) => .abs (ps ++ qs) b
  | t => t

/-- How often a name is applied in a row, and to what in the end. -/
def iterations (fn : String) : Term → Nat × Term
  | .app [.var x, t] =>
    if x = fn then let rest := iterations fn t; (rest.1 + 1, rest.2) else (0, .app [.var x, t])
  | t => (0, t)

/-- `(f x -> (f (f (f x))))` is `3`. -/
def asNumber : Term → Term
  | .abs [fn, arg] b =>
    let (n, last) := iterations fn b
    if last = .var arg then .nat n else .abs [fn, arg] b
  | t => t

/-- `(k -> (k 1 2 3))` is `(1,2,3)`, when the consumer stands nowhere else. -/
def asTuple (uses : Uses) : Term → Term
  | .abs [k] (.app (.var x :: items)) =>
    if x = k ∧ uses.count k = 1 then .tuple items else .abs [k] (.app (.var x :: items))
  | t => t

/-- The items that `cons` strings together, and what ends them. -/
def consItems (cons : String) : Term → List Term × Term
  | .app [.var x, item, t] =>
    if x = cons then let rest := consItems cons t; (item :: rest.1, rest.2)
    else ([], .app [.var x, item, t])
  | t => ([], t)

/-- `(c n -> (c 1 (c 2 (c 3 n))))` is `[1,2,3]`, when neither parameter stands in an item. -/
def asList (uses : Uses) : Term → Term
  | .abs [cons, nil] b =>
    let (items, last) := consItems cons b
    if last = .var nil ∧ uses.count cons = items.length ∧ uses.count nil = 1 then .list items
    else .abs [cons, nil] b
  | t => t

/-- Bit one selects its second argument, as the number zero does, and is read as that before. -/
def asBit? : Term → Option Bool
  | .abs [x, _] (.var y) => if x = y then some false else none
  | .nat 0 => some true
  | _ => none

/-- Eight bits are a character and thirty-two a word. -/
def asBits : Term → Term
  | .tuple items =>
    match items.mapM asBit? with
    | none => .tuple items
    | some bits =>
      if bits.length = Bits.charWidth then .char (String.singleton (Char.ofNat (Bits.ofBits bits)))
      else if bits.length = Bits.wordWidth then .word (Bits.ofBits bits)
      else .tuple items
  | t => t

def charText? : Term → Option String
  | .char s => some s
  | _ => none

/-- `['a','b','c']` is `"abc"`. -/
def asString : Term → Term
  | .list items =>
    match items.mapM charText? with
    | none => .list items
    | some texts => .str (String.join texts)
  | t => t

/-- Bits need their numbers read before them, and strings their characters. -/
def sugared (uses : Uses) (t : Term) : Term :=
  asString (asBits (asList uses (asTuple uses (asNumber t))))

/-- Records are not read back. -/
def asRecord (_ : Term) : Except Error Term := throw .recordReading

end SugaredLambda.Church
