import SugaredLambda.Library.Definitions
import SugaredLambda.Term.FreeNames
import SugaredLambda.Term.Printer

/-! The part of the library that a term needs. A definition uses only those before it, so that one
pass from the last to the first finds all that are needed. -/
namespace SugaredLambda.Library

/-- The library as it is written: each part under its title. -/
def sources : List String :=
  [("logic", logic), ("arithmetic", arithmetic), ("lists", lists)].map fun (title, bs) =>
    String.ofList (Term.layout 0 (.letIn bs (.var title)))

def requirements (b : Binding Term) : List String := (Term.abs b.params b.body).freeNames

/-- The definitions that some names need, directly or through later ones, with all the
names needed. -/
def select (names : List String) : List (Binding Term) → List (Binding Term) × List String
  | [] => ([], names)
  | b :: bs =>
    let (chosen, needed) := select names bs
    if needed.contains b.name then (b :: chosen, requirements b ++ needed) else (chosen, needed)

def supply (t : Term) : Term :=
  match (select t.freeNames definitions).1 with
  | [] => t
  | chosen => .letIn chosen t

end SugaredLambda.Library
