import SugaredLambda.Term.Fold

/-! The names that a term leaves free. One tally counts, for each name, the binders around the place
that is being read: every node raises it on the way down and lowers it again on the way back. -/
namespace SugaredLambda.Term

abbrev Tally := List (String × Nat)

def Tally.raise (x : String) : Tally → Tally
  | [] => [(x, 1)]
  | (y, n) :: rest => if x = y then (y, n+1) :: rest else (y, n) :: Tally.raise x rest

/-- A name whose count runs out leaves the tally. -/
def Tally.lower (x : String) : Tally → Tally
  | [] => []
  | (y, n) :: rest =>
    if x = y then if n ≤ 1 then rest else (y, n-1) :: rest else (y, n) :: Tally.lower x rest

theorem Tally.lower_raise (x : String) {tally : Tally} (h : ∀ e ∈ tally, 0 < e.2) :
    (tally.raise x).lower x = tally := by
  induction tally with
  | nil => simp [raise, lower]
  | cons e rest ih =>
    obtain ⟨hn, hrest⟩ := List.forall_mem_cons.1 h
    by_cases hx : x = e.1
    · simp [raise, lower, hx]; omega
    · simp [raise, lower, hx, ih hrest]

def Tally.binds (tally : Tally) (x : String) : Bool := tally.any (·.1 == x)

def unite (xs ys : List String) : List String := xs ++ ys.filter (!xs.contains ·)

def under (names : List String) (free : StateM Tally (List String)) :
    StateM Tally (List String) := do
  modify (names.foldl fun tally x => tally.raise x)
  let found ← free
  modify (names.foldl fun tally x => tally.lower x)
  return found

def union : List (StateM Tally (List String)) → StateM Tally (List String)
  | [] => return []
  | free :: rest => do
    let found ← free
    let more ← union rest
    return unite found more

/-- The names of a block bind in all its definitions as in its body. -/
def freeNamesUnder : Algebra (StateM Tally (List String)) where
  abs ps b := under ps b
  app := union
  var x := do return if (← get).binds x then [] else [x]
  nat _ := return []
  list := union
  tuple := union
  char _ := return []
  str _ := return []
  word _ := return []
  record cs := union (fieldBodies cs)
  letIn bs b := under (bs.map (·.name)) (union (b :: bs.map fun x => under x.params x.body))

/-- Each once. -/
def freeNames (t : Term) : List String := ((t.fold freeNamesUnder).run []).1

end SugaredLambda.Term
