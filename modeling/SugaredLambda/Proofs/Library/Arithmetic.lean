import SugaredLambda.Proofs.Library.Values

/-! A number is a loop, so that each function on numbers is settled by a single round of it. -/
namespace SugaredLambda.Library
open Lambda Church Value
variable {m n : Nat}

theorem reduces_succ (n : Nat) : Reduces (.app succ (numeral n)) (numeral (n + 1)) :=
  calc
    Reduces (.app succ (numeral n))
        (binders 2 (.app (.var 1) (apply (numeral n) [.var 1, .var 0]))) :=
      reduces_of_put [numeral n] (by simp [put, binders, apply, shift_of_closed])
    Reduces _ (binders 2 (repeated (.var 1) (.var 0) (n + 1))) :=
      Reduces.binders 2 (.app .refl (reduces_numeral (.var 1) (.var 0) n))
    _ = numeral (n + 1) := binders_repeated (n + 1)

theorem reduces_add (m n : Nat) : Reduces (apply add [numeral m, numeral n]) (numeral (m + n)) := by
  have hloop := reduces_loop (f := .var 1) (g := fun k => repeated (.var 1) (.var 0) (n + k))
    (reduces_numeral (.var 1) (.var 0) n) (fun _ => .refl) m
  calc
    Reduces (apply add [numeral m, numeral n])
        (binders 2 (apply (numeral m) [.var 1, apply (numeral n) [.var 1, .var 0]])) :=
      reduces_of_put [numeral n, numeral m] (by simp [put, binders, apply, shift_of_closed])
    Reduces _ (binders 2 (repeated (.var 1) (.var 0) (n + m))) := Reduces.binders 2 hloop
    _ = numeral (m + n) := by rw [binders_repeated, Nat.add_comm]

theorem reduces_mul (m n : Nat) : Reduces (apply mul [numeral m, numeral n]) (numeral (m * n)) := by
  have hround (k : Nat) :
      Reduces (.app (.app (numeral n) (.var 1)) (repeated (.var 1) (.var 0) (n * k)))
      (repeated (.var 1) (.var 0) (n * (k + 1))) := by
    rw [Nat.mul_succ, ← repeated_add]
    exact reduces_numeral _ _ n
  have hfn := reduces_numeral_fn (.app (numeral n) (.var 0)) m
  rw [shift, shift_of_closed (within_numeral n) (Int.le_refl 0)] at hfn
  calc
    Reduces (apply mul [numeral m, numeral n])
        (.abs (.app (numeral m) (.app (numeral n) (.var 0)))) :=
      reduces_of_put [numeral n, numeral m] (by simp [put, binders, shift_of_closed])
    Reduces _ (binders 2 (repeated (.app (numeral n) (.var 1)) (.var 0) m)) := hfn.abs
    Reduces _ (binders 2 (repeated (.var 1) (.var 0) (n * m))) :=
      Reduces.binders 2 (reduces_repeated
        (g := fun k => repeated (.var 1) (.var 0) (n * k)) .refl hround m)
    _ = numeral (m * n) := by rw [binders_repeated, Nat.mul_comm]

/-- The last application of some, kept back; none was made yet at first. -/
def delayed : Nat → Lambda
  | 0 => .abs (.var 1)
  | k+1 => .abs (.app (.var 0) (repeated (.var 2) (.var 1) k))

theorem reduces_delayed (k : Nat) :
    Reduces (.app (binders 2 (.app (.var 0) (.app (.var 1) (.var 3)))) (delayed k))
      (delayed (k + 1)) := by
  have hmade : Reduces (.app ((delayed k).shift 1 0) (.var 2)) (repeated (.var 2) (.var 1) k) := by
    cases k with
    | zero => exact reduces_of_put [.var 2] (by simp [put, repeated])
    | succ k =>
      exact reduces_of_put [.var 2] (by simp [put, shift_repeated, put_repeated, shift, repeated])
  calc
    Reduces (.app (binders 2 (.app (.var 0) (.app (.var 1) (.var 3)))) (delayed k))
        (.abs (.app (.var 0) (.app ((delayed k).shift 1 0) (.var 2)))) :=
      reduces_of_put [delayed k] (by simp [put, binders])
    Reduces _ (delayed (k + 1)) := Reduces.abs (.app .refl hmade)

theorem reduces_released (n : Nat) :
    Reduces (.app (delayed n) (.abs (.var 0))) (repeated (.var 1) (.var 0) (n - 1)) := by
  cases n with
  | zero => exact reduces_of_put [.abs (.var 0)] (by simp [put, repeated])
  | succ n =>
    calc
      Reduces (.app (delayed (n + 1)) (.abs (.var 0)))
          (.app (.abs (.var 0)) (repeated (.var 1) (.var 0) n)) :=
        reduces_of_put [.abs (.var 0)] (by simp [put, put_repeated, shift])
      Reduces _ (repeated (.var 1) (.var 0) n) :=
        reduces_of_put [repeated (.var 1) (.var 0) n] (by simp [put, shift_zero])

theorem reduces_pred (n : Nat) : Reduces (.app pred (numeral n)) (numeral (n - 1)) :=
  calc
    Reduces (.app pred (numeral n)) (binders 2 (apply (numeral n)
        [binders 2 (.app (.var 0) (.app (.var 1) (.var 3))), .abs (.var 1), .abs (.var 0)])) :=
      reduces_of_put [numeral n] (by simp [put, binders, apply, shift_of_closed])
    Reduces _ (binders 2 (.app (delayed n) (.abs (.var 0)))) :=
      Reduces.binders 2 (.app (reduces_loop .refl reduces_delayed n) .refl)
    Reduces _ (binders 2 (repeated (.var 1) (.var 0) (n - 1))) :=
        Reduces.binders 2 (reduces_released n)
    _ = numeral (n - 1) := binders_repeated (n - 1)

theorem reduces_sub (m n : Nat) : Reduces (apply sub [numeral m, numeral n]) (numeral (m - n)) :=
  calc
    Reduces (apply sub [numeral m, numeral n]) (apply (numeral n) [pred, numeral m]) :=
      reduces_of_put [numeral n, numeral m] (by simp [put, apply, shift_of_closed, put_of_closed])
    Reduces _ (numeral (m - n)) :=
      reduces_loop (g := fun k => numeral (m - k)) .refl (fun k => reduces_pred (m - k)) n

theorem reduces_isZero (n : Nat) : Reduces (.app isZero (numeral n)) (truth (n = 0)) := by
  have hround (k : Nat) : Reduces (.app (.abs (truth false)) (truth (k = 0))) (truth (k + 1 = 0)) :=
    reduces_of_put [truth (k = 0)] (put_of_closed (within_truth false) (Int.le_refl 0))
  calc
    Reduces (.app isZero (numeral n)) (apply (numeral n) [.abs (truth false), truth true]) :=
      reduces_of_put [numeral n] (by simp [put, apply, shift_of_closed, put_of_closed])
    Reduces _ (truth (n = 0)) := reduces_loop (g := fun k => truth (k = 0)) .refl hround n

theorem reduces_leq (m n : Nat) : Reduces (apply leq [numeral m, numeral n]) (truth (m ≤ n)) :=
  calc
    Reduces (apply leq [numeral m, numeral n]) (.app isZero (apply sub [numeral m, numeral n])) :=
      reduces_of_put [numeral n, numeral m] (by simp [put, apply, shift_of_closed, put_of_closed])
    Reduces _ (.app isZero (numeral (m - n))) := Reduces.app .refl (reduces_sub m n)
    Reduces _ (truth (m - n = 0)) := reduces_isZero (m - n)
    _ = truth (m ≤ n) := by simp only [Nat.sub_eq_zero_iff_le]

theorem reduces_and (a b : Bool) : Reduces (apply and [truth a, truth b]) (truth (a && b)) :=
  calc
    Reduces (apply and [truth a, truth b]) (apply (truth a) [truth b, truth false]) :=
      reduces_of_put [truth b, truth a] (by simp [put, apply, shift_of_closed, put_of_closed])
    Reduces _ (if a then truth b else truth false) := reduces_truth a (truth b) (truth false)
    _ = truth (a && b) := by cases a <;> rfl

theorem reduces_eq (m n : Nat) : Reduces (apply eq [numeral m, numeral n]) (truth (m = n)) :=
  calc
    Reduces (apply eq [numeral m, numeral n])
        (apply and [apply leq [numeral m, numeral n], apply leq [numeral n, numeral m]]) :=
      reduces_of_put [numeral n, numeral m] (by simp [put, apply, shift_of_closed, put_of_closed])
    Reduces _ (apply and [truth (m ≤ n), truth (n ≤ m)]) :=
      Reduces.apply .refl (.cons (reduces_leq m n) (.cons (reduces_leq n m) .nil))
    Reduces _ (truth (m ≤ n && n ≤ m)) := reduces_and (m ≤ n) (n ≤ m)
    _ = truth (m = n) := by rw [← Bool.decide_and]; simp only [← Nat.le_antisymm_iff]

/-- The first of two for true, which is no number. -/
def verdict (b : Bool) : Term := if b then .abs ["a", "b"] (.var "a") else .nat 0

theorem shows_truth (b : Bool) : Shows (truth b) (verdict b) := ⟨normal_truth b, by cases b <;> cbv⟩

theorem shows_numeral (n : Nat) : Shows (numeral n) (.nat n) :=
  ⟨normal_numeral n, (decode_eq_reading _).trans (reading_numeral 0 n)⟩

theorem argument_nat (n : Nat) : Argument (.nat n) (numeral n) := argument_of_encoded (.nat n) rfl

/-- The functions of the library are those of arithmetic, where zero has no predecessor
but itself. -/
theorem gives_arithmetic (m n : Nat) :
    Gives (.app [.var "succ", .nat m]) (.nat (m + 1)) ∧
    Gives (.app [.var "add", .nat m, .nat n]) (.nat (m + n)) ∧
    Gives (.app [.var "mul", .nat m, .nat n]) (.nat (m * n)) ∧
    Gives (.app [.var "pred", .nat m]) (.nat (m - 1)) ∧
    Gives (.app [.var "sub", .nat m, .nat n]) (.nat (m - n)) ∧
    Gives (.app [.var "leq", .nat m, .nat n]) (verdict (m ≤ n)) ∧
    Gives (.app [.var "eq", .nat m, .nat n]) (verdict (m = n)) ∧
    Gives (.app [.var "is_zero", .nat m]) (verdict (m = 0)) := by
  have one := List.Forall₂.cons (argument_nat m) .nil
  have two := List.Forall₂.cons (argument_nat m) (.cons (argument_nat n) .nil)
  exact ⟨gives_call rfl one (reduces_succ m) (shows_numeral _),
    gives_call rfl two (reduces_add m n) (shows_numeral _),
    gives_call rfl two (reduces_mul m n) (shows_numeral _),
    gives_call rfl one (reduces_pred m) (shows_numeral _),
    gives_call rfl two (reduces_sub m n) (shows_numeral _),
    gives_call rfl two (reduces_leq m n) (shows_truth _),
    gives_call rfl two (reduces_eq m n) (shows_truth _),
    gives_call rfl one (reduces_isZero m) (shows_truth _)⟩

end SugaredLambda.Library
