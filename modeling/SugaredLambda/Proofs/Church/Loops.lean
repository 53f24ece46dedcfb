import SugaredLambda.Proofs.Church.Congruence
import SugaredLambda.Proofs.Lambda.Calls

/-! Numbers, lists and bits as functions: a number is a loop, a list its own right fold, a bit
selects one of two. -/
namespace SugaredLambda.Church
open Lambda
variable {f x c z : Lambda}

def repeated (f x : Lambda) : Nat → Lambda
  | 0 => x
  | n+1 => .app f (repeated f x n)

theorem repeated_add (f x : Lambda) (m n : Nat) :
    repeated f (repeated f x m) n = repeated f x (m + n) := by
  induction n with
  | zero => rfl
  | succ n ih => exact congrArg (Lambda.app f) ih

theorem shift_repeated (m c : Int) (f x : Lambda) (n : Nat) :
    (repeated f x n).shift m c = repeated (f.shift m c) (x.shift m c) n := by
  induction n with
  | zero => rfl
  | succ n ih => exact congrArg (Lambda.app _) ih

theorem iterate_eq_repeated (n : Nat) : iterate n = repeated (.var 1) (.var 0) n := by
  induction n with
  | zero => rfl
  | succ n ih => exact congrArg (Lambda.app _) ih

theorem binders_repeated (n : Nat) : binders 2 (repeated (.var 1) (.var 0) n) = numeral n :=
  congrArg (binders 2) (iterate_eq_repeated n).symm

theorem put_iterate (f x : Lambda) (n : Nat) : (iterate n).put [x, f] 0 = repeated f x n := by
  induction n with
  | zero => exact shift_zero x 0
  | succ n ih => exact congrArg₂ Lambda.app (shift_zero f 0) ih

theorem put_repeated (vs : List Lambda) (d : Int) (f x : Lambda) (n : Nat) :
    (repeated f x n).put vs d = repeated (f.put vs d) (x.put vs d) n := by
  induction n with
  | zero => rfl
  | succ n ih => exact congrArg (Lambda.app _) ih

theorem reduces_numeral_fn (f : Lambda) (n : Nat) :
    Reduces (.app (numeral n) f) (.abs (repeated (f.shift 1 0) (.var 0) n)) := by
  refine reduces_of_put [f] (b := .abs (iterate n)) ?_
  rw [put, iterate_eq_repeated, put_repeated]
  rfl

theorem reduces_numeral (f x : Lambda) (n : Nat) :
    Reduces ((numeral n).apply [f, x]) (repeated f x n) :=
  put_iterate f x n ▸ reduces_call [x, f] (iterate n)

/-- The rounds of a loop, one after the other from the inside. -/
theorem reduces_repeated {g : Nat → Lambda} (hstart : Reduces x (g 0))
    (hround : ∀ k, Reduces (.app f (g k)) (g (k + 1))) (n : Nat) :
    Reduces (repeated f x n) (g n) := by
  induction n with
  | zero => exact hstart
  | succ n ih => exact (Reduces.app .refl ih).trans (hround n)

theorem reduces_loop {g : Nat → Lambda} (hstart : Reduces x (g 0))
    (hround : ∀ k, Reduces (.app f (g k)) (g (k + 1))) (n : Nat) :
    Reduces ((numeral n).apply [f, x]) (g n) :=
  (reduces_numeral f x n).trans (reduces_repeated hstart hround n)

theorem normal_numeral (n : Nat) : Normal (numeral n) := by
  refine .abs (.abs ?_)
  induction n with
  | zero => exact normal_var 0
  | succ n ih => exact .app id (normal_var 1) ih

theorem put_cells {items : List Lambda} (hclosed : ∀ t ∈ items, t.Within 0) (c z : Lambda) :
    (cells items).put [z, c] 0 = items.foldr (fun item rest => c.apply [item, rest]) z := by
  induction items with
  | nil => exact shift_zero z 0
  | cons item items ih =>
    obtain ⟨hitem, hitems⟩ := List.forall_mem_cons.1 hclosed
    rw [List.foldr_cons, ← ih hitems]
    exact congrArg₂ (fun f a => Lambda.app f a)
      (congrArg₂ Lambda.app (shift_zero c 0) (put_of_within hitem (Int.le_refl 0))) rfl

/-- The rounds of a fold, from the end of the list. -/
theorem reduces_fold {α : Type} {encoding : α → Lambda} {g : List α → Lambda}
    (hstart : Reduces z (g []))
    (hround : ∀ a as, Reduces (c.apply [encoding a, g as]) (g (a :: as))) {as : List α}
    (hclosed : ∀ a ∈ as, (encoding a).Within 0) :
    Reduces ((foldList (as.map encoding)).apply [c, z]) (g as) := by
  have hcall := reduces_call [z, c] (cells (as.map encoding))
  rw [put_cells (List.forall_mem_map.2 hclosed), List.foldr_map] at hcall
  refine hcall.trans ?_
  clear hcall hclosed
  induction as with
  | nil => exact hstart
  | cons a as ih => exact (Reduces.app .refl ih).trans (hround a as)

theorem normal_foldList {items : List Lambda} (h : ∀ t ∈ items, Normal t) :
    Normal (foldList items) := by
  refine .abs (.abs ?_)
  induction items with
  | nil => exact normal_var 0
  | cons item items ih =>
    obtain ⟨hitem, hitems⟩ := List.forall_mem_cons.1 h
    exact .app id (.app id (normal_var 1) hitem) (ih hitems)

/-- The first of two for true, the second for false. -/
def truth (b : Bool) : Lambda := bit !b

theorem reduces_truth (b : Bool) (t e : Lambda) :
    Reduces ((truth b).apply [t, e]) (if b then t else e) := by
  have hcall := reduces_call [e, t] (.var (if b then 1 else 0))
  cases b <;> simpa [put, shift_zero, Lambda.binders, truth, bit] using hcall

@[simp] theorem within_truth (b : Bool) :
    (truth b).Within 0 := by cases b <;> exact ⟨by decide, by decide⟩

theorem normal_truth (b : Bool) : Normal (truth b) := .abs (.abs (normal_var _))

end SugaredLambda.Church
