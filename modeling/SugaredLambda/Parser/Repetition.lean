import SugaredLambda.Parser.Basic

/-! Repetition: every number of times, fewest first. Each time has to read something. -/
namespace SugaredLambda.Parser
variable {κ ω α β : Type} [BEq κ] [Hashable κ]

/-- The chains of results that are one longer, where the last of them reads something. -/
def extend (p : Parser κ ω α) (text : Array Char) :
    Results (List α) → StateM (Progress κ ω) (Results (List α)) :=
  after fun values position => do
    let found ← p text position
    return (found.filter (·.2 != position)).map fun (v, next) => (values ++ [v], next)

/-- Chains, then the longer ones that they extend to, at most `rounds` times. -/
def chains (p : Parser κ ω α) (text : Array Char) :
    Nat → Results (List α) → StateM (Progress κ ω) (Results (List α))
  | _, [] => return []
  | 0, found => return found
  | rounds+1, found => do
    let longer ← extend p text found
    return found ++ (← chains p text rounds longer)

theorem chains_succ (p : Parser κ ω α) (text : Array Char) (rounds : Nat)
    (found : Results (List α)) : chains p text (rounds + 1) found = do
      let longer ← extend p text found
      return found ++ (← chains p text rounds longer) := by
  cases found with
  | nil => cases rounds <;> rfl
  | cons => rfl

/-- A round reads at least one character, so that one round more than there are characters
is enough. -/
def many (p : Parser κ ω α) : Parser κ ω (List α) := fun text position =>
  chains p text (text.size - position + 1) [([], position)]

def many1 (p : Parser κ ω α) : Parser κ ω (List α) := do
  let v ← p
  let vs ← many p
  return v :: vs

def sepBy1 (p : Parser κ ω α) (sep : Parser κ ω β) : Parser κ ω (List α) := do
  let v ← p
  let vs ← many (do let _ ← sep; p)
  return v :: vs

def sepBy (p : Parser κ ω α) (sep : Parser κ ω β) : Parser κ ω (List α) :=
  anyOf [return [], sepBy1 p sep]

end SugaredLambda.Parser
