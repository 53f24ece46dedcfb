import SugaredLambda.Error
import SugaredLambda.Grammar.Rules
import SugaredLambda.Text.Lines

/-! Reading programs. `term` ties the rules together: the terms inside a term begin further on in
the text, which bounds the recursion. A program is read when a term spans the whole text; of several
readings the last one counts. -/
namespace SugaredLambda.Grammar
open SugaredLambda.Parser

/-- The terms at a depth, where `keep` may remember what the rule reads. -/
def termWith (keep : Nat → Rule Term → Rule Term) (d : Nat) (text : Array Char) (position : Nat) :
    StateM (Progress Nat Term) (Results Term) :=
  let inner (d : Nat) : Rule Term := fun _ next =>
    if _h : position < next ∧ next ≤ text.size then termWith keep d text next else return []
  keep d (termRule inner d) text position
termination_by text.size - position

def term : Nat → Rule Term := termWith remember

/-- What was read from the beginning of a text, and how far any reading got. -/
structure Parse where
  text : Array Char
  results : Results Term
  farthest : Nat

def parseClean (text : Array Char) : Parse :=
  let (results, progress) := (term 0 text 0).run {}
  { text, results, farthest := progress.farthest }

namespace Parse

def complete (p : Parse) : List Term :=
  p.results.filterMap fun (t, position) => if position = p.text.size then some t else none

def failure (p : Parse) : Error :=
  let (line, column) := Text.location p.text.toList p.farthest
  .unexpected p.text[p.farthest]? p.farthest line column

def all (p : Parse) : Except Error (List Term) :=
  if p.complete.isEmpty then throw p.failure else return p.complete

end Parse

/-- What is read from a program, its comments left out. -/
def parsed (source : String) : Parse := parseClean (Text.clean source.toList).toArray

/-- Every reading of a program, in the order of the rules. -/
def parseAll (source : String) : Except Error (List Term) := (parsed source).all

/-- The last reading of a program. -/
def parse (source : String) : Except Error Term :=
  let p := parsed source
  match p.complete.getLast? with
  | some t => return t
  | none => throw p.failure

end SugaredLambda.Grammar
