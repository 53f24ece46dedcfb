import Std.Data.HashMap

/-! Parsers that follow every reading of a text at once. A parser returns each value it can read at
a position together with the position after it. What a run keeps beside the results is its progress:
the farthest position that was looked at, and the results of parsers that remember theirs. -/
namespace SugaredLambda

abbrev Results (α : Type) := List (α × Nat)

structure Progress (κ ω : Type) [BEq κ] [Hashable κ] where
  farthest : Nat := 0
  remembered : Std.HashMap (κ × Nat) (Results ω) := ∅

def Parser (κ ω : Type) [BEq κ] [Hashable κ] (α : Type) :=
  Array Char → Nat → StateM (Progress κ ω) (Results α)

namespace Parser
variable {κ ω α β γ : Type} [BEq κ] [Hashable κ]

def reach (position : Nat) : StateM (Progress κ ω) Unit :=
  modify fun p => { p with farthest := max p.farthest position }

def fail : Parser κ ω α := fun _ _ => return []

/-- The results of a parser after each of the results of another, in order. -/
def after (next : α → Nat → StateM (Progress κ ω) (Results β)) :
    Results α → StateM (Progress κ ω) (Results β)
  | [] => return []
  | (v, position) :: more => do
    let found ← next v position
    return found ++ (← after next more)

instance : Monad (Parser κ ω) where
  pure v := fun _ position => return [(v, position)]
  bind p next := fun text position => do
    after (fun v position => next v text position) (← p text position)

/-- The results of all the alternatives, in order. -/
def anyOf : List (Parser κ ω α) → Parser κ ω α
  | [] => fail
  | p :: ps => fun text position => do
    let found ← p text position
    return found ++ (← anyOf ps text position)

/-- The results of the first alternative that has any; those after it are not tried. -/
def firstOf : List (Parser κ ω α) → Parser κ ω α
  | [] => fail
  | p :: ps => fun text position => do
    match ← p text position with
    | [] => firstOf ps text position
    | found => return found

def sequence : List (Parser κ ω α) → Parser κ ω (List α)
  | [] => return []
  | p :: ps => do
    let v ← p
    let vs ← sequence ps
    return v :: vs

def between (left : Parser κ ω α) (right : Parser κ ω β) (p : Parser κ ω γ) : Parser κ ω γ := do
  let _ ← left
  let v ← p
  let _ ← right
  return v

/-- Runs at most once at a position: what is remembered under the key is returned again. -/
def remember (key : κ) (p : Parser κ ω ω) : Parser κ ω ω := fun text position => do
  match (← get).remembered[(key, position)]? with
  | some found => return found
  | none =>
    let found ← p text position
    modify fun s => { s with remembered := s.remembered.insert (key, position) found }
    return found

end Parser
end SugaredLambda
