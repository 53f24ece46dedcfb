import SugaredLambda.Definitions.Order
import SugaredLambda.Term.FreeNames

/-! Sorting the blocks of a term by dependency. A definition that needs itself takes its own name as
its first parameter, so that a fixed-point combinator can hand it over. -/
namespace SugaredLambda.Definitions

def pendingOf (siblings : List String) (b : Binding Term) : Pending :=
  let free := (Term.abs b.params b.body).freeNames
  { name := b.name
    needs := free.filter fun x => siblings.contains x && x != b.name
    binding := if free.contains b.name then { b with params := b.name :: b.params } else b }

def arrange (bs : List (Binding Term)) : List Placed :=
  order [] (bs.map (pendingOf (bs.map (·.name))))

def sorter : Term.Algebra Term :=
  { Term.rebuild with letIn := fun bs b => .letIn ((arrange bs).map (·.binding)) b }

/-- Inner blocks are sorted before the blocks around them. -/
def sort : Term → Term := Term.fold sorter

end SugaredLambda.Definitions
