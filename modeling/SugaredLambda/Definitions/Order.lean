import SugaredLambda.Term.Basic

/-! The order of the definitions of a block: each after the siblings that it needs, as far as
possible. Passes go over what is pending in its source order. A pass that places nothing has met a
cycle, and the first pending definition is placed without what it misses. -/
namespace SugaredLambda.Definitions

/-- A definition with the names of the siblings that it needs. -/
structure Pending where
  name : String
  needs : List String
  binding : Binding Term

/-- A definition in its place, with the needed names that were not ready there. -/
structure Placed where
  name : String
  missing : List String
  binding : Binding Term

def Pending.place (p : Pending) (ready : List String) : Placed :=
  ⟨p.name, p.needs.filter (!ready.contains ·), p.binding⟩

/-- One pass: what it places, each as soon as all is ready that it needs, and what it leaves. -/
def pass : List String → List Pending → List Placed × List Pending
  | _, [] => ([], [])
  | ready, p :: pending =>
    let placed := p.place ready
    if placed.missing.isEmpty then
      let (more, left) := pass (p.name :: ready) pending
      (placed :: more, left)
    else
      let (more, left) := pass ready pending
      (more, p :: left)

theorem length_pass (ready : List String) (pending : List Pending) :
    (pass ready pending).1.length + (pass ready pending).2.length = pending.length := by
  induction pending generalizing ready with
  | nil => rfl
  | cons p pending ih =>
    have h := ih (p.name :: ready)
    have h' := ih ready
    simp only [pass]
    split <;> simp only [List.length_cons] <;> omega

def order (ready : List String) (pending : List Pending) : List Placed :=
  match _h : pass ready pending with
  | (placed, []) => placed
  | ([], p :: left) => p.place ready :: order (p.name :: ready) left
  | (p :: placed, left) =>
    (p :: placed) ++ order ((p :: placed).map (·.name) ++ ready) left
termination_by pending.length
decreasing_by all_goals
  have h := length_pass ready pending
  simp only [_h, List.length_cons, List.length_nil] at h
  omega

end SugaredLambda.Definitions
