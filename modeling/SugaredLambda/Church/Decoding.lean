import SugaredLambda.Church.BinderName
import SugaredLambda.Church.Sugar
import SugaredLambda.Lambda.Basic

/-! Reading a nameless term back as a sugared one. Binders are named by their depth, nested
applications are read as one, and every abstraction is offered to the recognizers, the innermost
first. What is left to do waits on a stack, however deep the term is. -/
namespace SugaredLambda.Church

abbrev Reading := Term × Uses

def named (depth : Nat) (index : Int) : Reading :=
  let x := variableName index depth
  (.var x, [(x, 1)])

/-- The reading of a binder at a depth over the reading of its body. -/
def abstracted (depth : Nat) (body : Reading) : Reading :=
  (sugared body.2 (mergeParams (.abs [binderName depth] body.1)), body.2)

def Uses.total (parts : List Reading) : Uses := parts.foldl (fun uses part => uses.merge part.2) []

/-- The reading of an application over those of its head and its arguments. -/
def gathered (parts : List Reading) : Reading := (.app (parts.map (·.1)), Uses.total parts)

/-- Terms to read, and the nodes above them that take up as many readings. -/
inductive Work where
  | visit (t : Lambda) (depth : Nat)
  | abs (depth : Nat)
  | app (count : Nat)

namespace Work

def visits (depth : Nat) (ts : List Lambda) : List Work := ts.map (visit · depth)

def weight : List Work → Nat
  | [] => 0
  | visit t _ :: todo => 2 * t.size + weight todo
  | _ :: todo => weight todo + 1

theorem weight_visits (depth : Nat) (ts : List Lambda) (todo : List Work) :
    weight (visits depth ts ++ todo) + 2 * ts.length = 2 * Lambda.sizes ts + weight todo := by
  induction ts with
  | nil => exact (Nat.zero_add _).symm
  | cons t ts ih =>
    change 2 * t.size + weight (visits depth ts ++ todo) + 2 * (ts.length + 1) =
      2 * (t.size + 1 + Lambda.sizes ts) + weight todo
    omega

theorem weight_spine (depth count : Nat) (f a : Lambda) (todo : List Work) :
    weight (visits depth ((f.app a).spine.1 :: (f.app a).spine.2) ++ app count :: todo) <
      weight (visit (f.app a) depth :: todo) := by
  have hsize := (f.app a).size_spine
  have hlength := Lambda.length_spine_app f a
  have hvisits := weight_visits depth (f.app a).spine.2 (app count :: todo)
  change 2 * (f.app a).spine.1.size +
    weight (visits depth (f.app a).spine.2 ++ app count :: todo) < _
  simp only [weight] at hvisits ⊢
  omega

end Work

/-- The last reading comes first. A node finds the readings that it takes up on top of
the others. -/
def loop : List Work → List Reading → List Reading
  | [], done => done
  | .visit (.var i) depth :: todo, done => loop todo (named depth i :: done)
  | .visit (.abs b) depth :: todo, done => loop (.visit b (depth + 1) :: .abs depth :: todo) done
  | .visit (.app f a) depth :: todo, done =>
    let spine := (f.app a).spine
    loop (Work.visits depth (spine.1 :: spine.2) ++ .app (spine.2.length + 1) :: todo) done
  | .abs depth :: todo, body :: done => loop todo (abstracted depth body :: done)
  -- a body is read before its binder, so that this does not come up
  | .abs _ :: todo, [] => loop todo []
  | .app count :: todo, done => loop todo (gathered (done.take count).reverse :: done.drop count)
termination_by todo => Work.weight todo
decreasing_by
  · simp [Work.weight, Lambda.size]
  · simp [Work.weight, Lambda.size]; omega
  · exact Work.weight_spine depth _ f a todo
  · simp [Work.weight]
  · simp [Work.weight]
  · simp [Work.weight]

theorem loop_ne_nil {todo : List Work} {done : List Reading}
    (h : done ≠ [] ∨ ∃ t depth rest, todo = .visit t depth :: rest) : loop todo done ≠ [] := by
  fun_induction loop todo done with
  | case1 done => exact h.resolve_right (by simp)
  | case2 i depth todo done ih => exact ih (.inl (List.cons_ne_nil _ _))
  | case3 b depth todo done ih => exact ih (.inr ⟨b, depth + 1, _, rfl⟩)
  | case4 f a depth todo done spine ih => exact ih (.inr ⟨spine.1, depth, _, rfl⟩)
  | case5 depth todo body done ih => exact ih (.inl (List.cons_ne_nil _ _))
  | case6 depth todo ih => simp at h
  | case7 count todo done ih => exact ih (.inl (List.cons_ne_nil _ _))

/-- No term fails to be read: what no recognizer knows stays as it is. -/
def decode (t : Lambda) : Term :=
  ((loop [.visit t 0] []).head (loop_ne_nil (.inr ⟨t, 0, [], rfl⟩))).1

end SugaredLambda.Church
