/-! Sugared terms: the lambda calculus with names, several parameters and arguments at once,
literals, tagged records and blocks of local definitions. -/
namespace SugaredLambda

/-- A local definition `name params = body`. -/
structure Binding (α : Type) where
  name : String
  params : List String
  body : α
  deriving DecidableEq

def Binding.map {α β : Type} (f : α → β) (b : Binding α) : Binding β := ⟨b.name, b.params, f b.body⟩

structure Field (α : Type) where
  name : String
  body : α
  deriving DecidableEq

def Field.map {α β : Type} (f : α → β) (x : Field α) : Field β := ⟨x.name, f x.body⟩

structure Constructor (α : Type) where
  name : String
  fields : List (Field α)
  deriving DecidableEq

def Constructor.map {α β : Type} (f : α → β) (c : Constructor α) : Constructor β :=
  ⟨c.name, c.fields.map (Field.map f)⟩

/-- The bodies of all fields of all constructors, in order. -/
def fieldBodies {α : Type} (ctors : List (Constructor α)) : List α :=
  ctors.flatMap fun c => c.fields.map (·.body)

/-- A character literal holds what stands between its quotes, which is one character in
a program. -/
inductive Term where
  | abs (params : List String) (body : Term)
  | app (terms : List Term)
  | var (name : String)
  | nat (value : Nat)
  | list (items : List Term)
  | tuple (items : List Term)
  | char (value : String)
  | str (value : String)
  | word (value : Nat)
  | record (ctors : List (Constructor Term))
  | letIn (bindings : List (Binding Term)) (body : Term)
  deriving Inhabited

end SugaredLambda
