import SugaredLambda.Definitions.Sort

/-! What sorting met on its way: definitions that need themselves, and cycles. -/
namespace SugaredLambda.Definitions

inductive Note where
  | selfRecursive (name : String)
  | cycle (name : String) (missing : List String)

def blockNotes (bs : List (Binding Term)) : List Note :=
  let own := bs.filter fun b => (Term.abs b.params b.body).freeNames.contains b.name
  let forced := (arrange bs).filter (!·.missing.isEmpty)
  own.map (.selfRecursive ·.name) ++
    forced.map fun p => .cycle p.name (p.missing.mergeSort (· ≤ ·))

abbrev Traced := Term × List Note

def notesOf (ts : List Traced) : List Note := ts.flatMap (·.2)

/-- Sorts and keeps the notes, those on inner blocks first. -/
def tracer : Term.Algebra Traced where
  abs ps b := (.abs ps b.1, b.2)
  app ts := (.app (ts.map (·.1)), notesOf ts)
  var x := (.var x, [])
  nat n := (.nat n, [])
  list ts := (.list (ts.map (·.1)), notesOf ts)
  tuple ts := (.tuple (ts.map (·.1)), notesOf ts)
  char s := (.char s, [])
  str s := (.str s, [])
  word n := (.word n, [])
  record cs := (.record (cs.map (Constructor.map (·.1))), notesOf (fieldBodies cs))
  letIn bs b :=
    let inner := bs.map (Binding.map (·.1))
    (sorter.letIn inner b.1, notesOf (bs.map (·.body)) ++ b.2 ++ blockNotes inner)

def notes (t : Term) : List Note := (t.fold tracer).2

end SugaredLambda.Definitions
