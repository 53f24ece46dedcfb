/-! Lambda terms without names: a variable counts the binders between itself and its own. -/
namespace SugaredLambda

inductive Lambda where
  | var (index : Int)
  | abs (body : Lambda)
  | app (fn arg : Lambda)
  deriving DecidableEq, Inhabited

namespace Lambda

def binders : Nat → Lambda → Lambda
  | 0, t => t
  | n+1, t => .abs (binders n t)

/-- `apply f [a, b, c]` is `((f a) b) c`. -/
def apply (fn : Lambda) (args : List Lambda) : Lambda := args.foldl .app fn

theorem apply_append (t : Lambda) (us vs : List Lambda) :
    t.apply (us ++ vs) = (t.apply us).apply vs :=
  List.foldl_append

def spineOnto : Lambda → List Lambda → Lambda × List Lambda
  | .app f a, args => spineOnto f (a :: args)
  | t, args => (t, args)

/-- The head of a nest of applications, and its arguments from left to right. -/
def spine (t : Lambda) : Lambda × List Lambda := spineOnto t []

theorem apply_spineOnto (t : Lambda) (args : List Lambda) :
    apply (spineOnto t args).1 (spineOnto t args).2 = apply t args := by
  fun_induction spineOnto t args with
  | case1 f a args ih => exact ih
  | case2 => rfl

theorem apply_spine (t : Lambda) : apply t.spine.1 t.spine.2 = t := apply_spineOnto t []

theorem spineOnto_apply (t : Lambda) (args rest : List Lambda) :
    spineOnto (t.apply args) rest = spineOnto t (args ++ rest) := by
  induction args generalizing t with
  | nil => rfl
  | cons a args ih => exact ih (.app t a)

theorem spine_apply {head : Lambda} (h : ∀ f a, head ≠ .app f a) (args : List Lambda) :
    (head.apply args).spine = (head, args) := by
  rw [spine, spineOnto_apply, List.append_nil]
  cases head with
  | app f a => exact absurd rfl (h f a)
  | _ => rfl

def size : Lambda → Nat
  | .var _ => 1
  | .abs b => b.size + 1
  | .app f a => f.size + a.size + 1

def sizes : List Lambda → Nat
  | [] => 0
  | a :: args => a.size + 1 + sizes args

theorem size_spineOnto (t : Lambda) (args : List Lambda) :
    (spineOnto t args).1.size + sizes (spineOnto t args).2 = t.size + sizes args := by
  fun_induction spineOnto t args with
  | case1 f a args ih => rw [ih, sizes, size]; omega
  | case2 => rfl

theorem size_spine (t : Lambda) : t.spine.1.size + sizes t.spine.2 = t.size := size_spineOnto t []

theorem length_spineOnto (t : Lambda) (args : List Lambda) :
    args.length ≤ (spineOnto t args).2.length := by
  fun_induction spineOnto t args with
  | case1 f a args ih => exact Nat.le_of_succ_le ih
  | case2 => exact Nat.le_refl _

theorem length_spine_app (f a : Lambda) : 0 < (app f a).spine.2.length := length_spineOnto f [a]

end Lambda
end SugaredLambda
