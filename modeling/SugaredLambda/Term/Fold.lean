import SugaredLambda.Term.Basic

/-! Structural recursion over terms. An algebra says what happens at a single node, given the
results for its children, and `fold` runs it bottom up. -/
namespace SugaredLambda.Term
variable {ρ : Type}

structure Algebra (ρ : Type) where
  abs : List String → ρ → ρ
  app : List ρ → ρ
  var : String → ρ
  nat : Nat → ρ
  list : List ρ → ρ
  tuple : List ρ → ρ
  char : String → ρ
  str : String → ρ
  word : Nat → ρ
  record : List (Constructor ρ) → ρ
  letIn : List (Binding ρ) → ρ → ρ

mutual

def fold (alg : Algebra ρ) : Term → ρ
  | .abs ps b => alg.abs ps (b.fold alg)
  | .app ts => alg.app (foldAll alg ts)
  | .var x => alg.var x
  | .nat n => alg.nat n
  | .list ts => alg.list (foldAll alg ts)
  | .tuple ts => alg.tuple (foldAll alg ts)
  | .char c => alg.char c
  | .str s => alg.str s
  | .word n => alg.word n
  | .record cs => alg.record (foldConstructors alg cs)
  | .letIn bs b => alg.letIn (foldBindings alg bs) (b.fold alg)

def foldAll (alg : Algebra ρ) : List Term → List ρ
  | [] => []
  | t :: ts => t.fold alg :: foldAll alg ts

def foldFields (alg : Algebra ρ) : List (Field Term) → List (Field ρ)
  | [] => []
  | ⟨x, t⟩ :: xs => ⟨x, t.fold alg⟩ :: foldFields alg xs

def foldConstructors (alg : Algebra ρ) : List (Constructor Term) → List (Constructor ρ)
  | [] => []
  | ⟨x, fs⟩ :: cs => ⟨x, foldFields alg fs⟩ :: foldConstructors alg cs

def foldBindings (alg : Algebra ρ) : List (Binding Term) → List (Binding ρ)
  | [] => []
  | ⟨x, ps, t⟩ :: bs => ⟨x, ps, t.fold alg⟩ :: foldBindings alg bs

end

@[simp] theorem foldAll_eq (alg : Algebra ρ) (ts : List Term) :
    foldAll alg ts = ts.map (fold alg) := by
  induction ts with
  | nil => rfl
  | cons t ts ih => simp [foldAll, ih]

@[simp] theorem foldFields_eq (alg : Algebra ρ) (xs : List (Field Term)) :
    foldFields alg xs = xs.map (Field.map (fold alg)) := by
  induction xs with
  | nil => rfl
  | cons x xs ih => simp [foldFields, ih, Field.map]

@[simp] theorem foldConstructors_eq (alg : Algebra ρ) (cs : List (Constructor Term)) :
    foldConstructors alg cs = cs.map (Constructor.map (fold alg)) := by
  induction cs with
  | nil => rfl
  | cons c cs ih => simp [foldConstructors, ih, Constructor.map]

@[simp] theorem foldBindings_eq (alg : Algebra ρ) (bs : List (Binding Term)) :
    foldBindings alg bs = bs.map (Binding.map (fold alg)) := by
  induction bs with
  | nil => rfl
  | cons b bs ih => simp [foldBindings, ih, Binding.map]

def rebuild : Algebra Term :=
  ⟨.abs, .app, .var, .nat, .list, .tuple, .char, .str, .word, .record, .letIn⟩

@[elab_as_elim]
theorem induction {motive : Term → Prop}
    (abs : ∀ ps b, motive b → motive (.abs ps b))
    (app : ∀ ts, (∀ t ∈ ts, motive t) → motive (.app ts))
    (var : ∀ x, motive (.var x))
    (nat : ∀ n, motive (.nat n))
    (list : ∀ ts, (∀ t ∈ ts, motive t) → motive (.list ts))
    (tuple : ∀ ts, (∀ t ∈ ts, motive t) → motive (.tuple ts))
    (char : ∀ s, motive (.char s))
    (str : ∀ s, motive (.str s))
    (word : ∀ n, motive (.word n))
    (record : ∀ cs, (∀ c ∈ cs, ∀ x ∈ c.fields, motive x.body) → motive (.record cs))
    (letIn : ∀ bs b, (∀ x ∈ bs, motive x.body) → motive b → motive (.letIn bs b))
    (t : Term) : motive t :=
  @Term.rec motive
    (fun ts => ∀ t ∈ ts, motive t)
    (fun cs => ∀ c ∈ cs, ∀ x ∈ c.fields, motive x.body)
    (fun bs => ∀ b ∈ bs, motive b.body)
    (fun c => ∀ x ∈ c.fields, motive x.body)
    (fun b => motive b.body)
    (fun xs => ∀ x ∈ xs, motive x.body)
    (fun x => motive x.body)
    abs app var nat list tuple char str word record letIn
    (by simp) (by simp_all) (by simp) (by simp_all) (by simp) (by simp_all)
    (by simp_all) (by simp_all) (by simp) (by simp_all) (by simp_all) t

private theorem map_eq_self {α : Type} {f : α → α} {xs : List α} (h : ∀ x ∈ xs, f x = x) :
    xs.map f = xs := (List.map_congr_left h).trans xs.map_id

theorem fold_rebuild (t : Term) : t.fold rebuild = t := by
  induction t using induction with
  | abs ps b ih => exact congrArg (Term.abs ps) ih
  | app ts ih => exact congrArg Term.app ((foldAll_eq _ ts).trans (map_eq_self ih))
  | list ts ih => exact congrArg Term.list ((foldAll_eq _ ts).trans (map_eq_self ih))
  | tuple ts ih => exact congrArg Term.tuple ((foldAll_eq _ ts).trans (map_eq_self ih))
  | record cs ih =>
    refine congrArg Term.record ((foldConstructors_eq _ cs).trans (map_eq_self fun c hc => ?_))
    exact congrArg (Constructor.mk c.name)
      (map_eq_self fun x hx => congrArg (Field.mk x.name) (ih c hc x hx))
  | letIn bs b ihs ih =>
    have hbs := (foldBindings_eq rebuild bs).trans
      (map_eq_self fun x hx => congrArg (Binding.mk x.name x.params) (ihs x hx))
    simp only [fold, ih]
    exact congrArg (Term.letIn · b) hbs
  | _ => rfl

def someChild : Algebra Bool where
  abs _ b := b
  app ts := ts.any id
  var _ := false
  nat _ := false
  list ts := ts.any id
  tuple ts := ts.any id
  char _ := false
  str _ := false
  word _ := false
  record cs := (fieldBodies cs).any id
  letIn bs b := bs.any (·.body) || b

def hasEmptyApplication : Term → Bool :=
  fold { someChild with app := fun ts => ts.isEmpty || ts.any id }

def hasRecord : Term → Bool := fold { someChild with record := fun _ => true }

end SugaredLambda.Term
