/-! Several possible results, in the order in which they were found. A node holds values that all
the paths through it share, and a dead end holds no path. -/
namespace SugaredLambda

inductive Alternatives (α : Type) where
  | deadEnd
  | node (values : List α) (branches : List (Alternatives α))

namespace Alternatives
variable {α : Type}

def leaf (v : α) : Alternatives α := .node [v] []

def fork (branches : List (Alternatives α)) : Alternatives α := .node [] branches

def ofList : List α → Alternatives α
  | [] => .deadEnd
  | vs => fork (vs.map leaf)

mutual

def paths : Alternatives α → List (List α)
  | .deadEnd => []
  | .node values [] => [values]
  | .node values (b :: bs) => (b.paths ++ pathsOf bs).map (values ++ ·)

def pathsOf : List (Alternatives α) → List (List α)
  | [] => []
  | b :: bs => b.paths ++ pathsOf bs

end

/-- The last value of every path that has one. -/
def toList (t : Alternatives α) : List α := t.paths.filterMap (·.getLast?)

theorem pathsOf_leaves (vs : List α) : pathsOf (vs.map leaf) = vs.map fun v => [v] := by
  induction vs with
  | nil => rfl
  | cons v vs ih => simp [pathsOf, leaf, paths, ih]

theorem toList_ofList (vs : List α) : (ofList vs).toList = vs := by
  cases vs with
  | nil => rfl
  | cons v vs =>
    have h := pathsOf_leaves (v :: vs)
    simp only [List.map_cons, pathsOf] at h
    simp [ofList, fork, toList, paths, h, Function.comp_def]

def isEmpty (t : Alternatives α) : Bool := t.paths.isEmpty

/-- The values of a node on one line, and a star for none. -/
def label (name : α → String) (values : List α) : String :=
  let names := ", ".intercalate (values.map name)
  if names.isEmpty then "*" else names

mutual

def drawLines (name : α → String) (first rest : String) : Alternatives α → List String
  | .deadEnd => [first ++ "DeadEnd"]
  | .node values branches => (first ++ label name values) :: drawBranches name rest branches

/-- The last branch turns off, and those before it leave a line to the next. -/
def drawBranches (name : α → String) (margin : String) : List (Alternatives α) → List String
  | [] => []
  | [b] => b.drawLines name (margin ++ "└── ") (margin ++ "    ")
  | b :: bs =>
    b.drawLines name (margin ++ "├── ") (margin ++ "│   ") ++ drawBranches name margin bs

end

/-- One line for each node, each ended. -/
def draw (name : α → String) (t : Alternatives α) : String :=
  String.join ((t.drawLines name "" "").map (· ++ "\n"))

end Alternatives
end SugaredLambda
