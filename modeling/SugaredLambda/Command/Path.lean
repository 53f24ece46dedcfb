/-! Paths of files, as they are written. -/
namespace SugaredLambda.Command

/-- The parts of a path from the root: a dot stays, and two dots step back, never beyond
the root. -/
def steps : List String → List String → List String
  | [], done => done.reverse
  | part :: parts, done =>
    if part = "" ∨ part = "." then steps parts done
    else if part = ".." then steps parts done.tail
    else steps parts (part :: done)

/-- A path that starts with exactly two slashes keeps both. -/
def root (path : String) : String :=
  if path.startsWith "//" ∧ ¬ path.startsWith "///" then "//" else "/"

def absolutePath (directory path : String) : String :=
  let whole := if path.startsWith "/" then path else directory ++ "/" ++ path
  root whole ++ "/".intercalate (steps (whole.splitOn "/") [])

end SugaredLambda.Command
