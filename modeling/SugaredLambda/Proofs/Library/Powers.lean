import SugaredLambda.Proofs.Library.Arithmetic

/-! A number applied to a number composes it with itself, and the composite goes around a power of
times. -/
namespace SugaredLambda.Library
open Lambda Church Value

/-- The function one binder further out, applied `q` times. -/
def rounds (q : Nat) : Lambda := .abs (repeated (.var 1) (.var 0) q)

theorem abs_rounds (q : Nat) : Lambda.abs (rounds q) = numeral q := binders_repeated q

theorem reduces_rounds (q : Nat) (x : Lambda) :
    Reduces (.app ((rounds q).shift 1 0) x) (repeated (.var 1) x q) :=
  reduces_of_put [x] (by simp [shift_repeated, put_repeated, shift, put, shift_zero])

theorem reduces_numeral_rounds (m q : Nat) :
    Reduces (.app (numeral m) (rounds q)) (rounds (q * m)) := by
  have hround (k : Nat) : Reduces (.app ((rounds q).shift 1 0) (repeated (.var 1) (.var 0) (q * k)))
      (repeated (.var 1) (.var 0) (q * (k + 1))) := by
    rw [Nat.mul_succ, ← repeated_add]
    exact reduces_rounds q _
  calc
    Reduces (.app (numeral m) (rounds q)) (.abs (repeated ((rounds q).shift 1 0) (.var 0) m)) :=
      reduces_numeral_fn (rounds q) m
    Reduces _ (rounds (q * m)) :=
      Reduces.abs (reduces_repeated (g := fun k => repeated (.var 1) (.var 0) (q * k))
        .refl hround m)

/-- Each number composed with `m` multiplies the rounds by `m`; the first has to turn a variable
into rounds. -/
theorem reduces_composed (m n : Nat) :
    Reduces (repeated (numeral m) (.var 0) (n + 1)) (rounds (m ^ (n + 1))) := by
  induction n with
  | zero => simpa [repeated, rounds, shift] using reduces_numeral_fn (.var 0) m
  | succ n ih =>
    calc
      Reduces (repeated (numeral m) (.var 0) (n + 2)) (.app (numeral m) (rounds (m ^ (n + 1)))) :=
        Reduces.app .refl ih
      Reduces _ (rounds (m ^ (n + 1) * m)) := reduces_numeral_rounds m _
      _ = rounds (m ^ (n + 2)) := by rw [← Nat.pow_succ]

theorem reduces_pow (m n : Nat) :
    Reduces (apply pow [numeral m, numeral n]) (.abs (repeated (numeral m) (.var 0) n)) :=
  calc
    Reduces (apply pow [numeral m, numeral n]) (.app (numeral n) (numeral m)) :=
      reduces_of_put [numeral n, numeral m] (by simp [put, shift_of_closed])
    Reduces _ (.abs (repeated ((numeral m).shift 1 0) (.var 0) n)) :=
        reduces_numeral_fn (numeral m) n
    _ = .abs (repeated (numeral m) (.var 0) n) := by
      rw [shift_of_closed (within_numeral m) (Int.le_refl 0)]

theorem reduces_pow_succ (m n : Nat) :
    Reduces (apply pow [numeral m, numeral (n + 1)]) (numeral (m ^ (n + 1))) :=
  abs_rounds (m ^ (n + 1)) ▸ (reduces_pow m (n + 1)).trans (reduces_composed m n).abs

theorem shows_identity : Shows (.abs (.var 0)) (.abs ["a"] (.var "a")) :=
  ⟨.abs (normal_var 0), by cbv⟩

theorem gives_pow_zero (m : Nat) :
    Gives (.app [.var "pow", .nat m, .nat 0]) (.abs ["a"] (.var "a")) :=
  gives_call rfl (.cons (argument_nat m) (.cons (argument_nat 0) .nil))
    (reduces_pow m 0) shows_identity

/-- A power is the number that it is for all exponents but zero: nothing composed is the identity,
which is one binder short of a number. -/
theorem gives_pow (m n : Nat) :
    Gives (.app [.var "pow", .nat m, .nat n]) (if n = 0 then .abs ["a"] (.var "a")
      else .nat (m ^ n)) := by
  cases n with
  | zero => exact gives_pow_zero m
  | succ n =>
    have hargs := List.Forall₂.cons (argument_nat m) (.cons (argument_nat (n + 1)) .nil)
    exact gives_call rfl hargs (reduces_pow_succ m n) (shows_numeral (m ^ (n + 1)))

/-- Two to the power of zero is not read as one. -/
theorem not_gives_two_pow_zero : ¬Gives (.app [.var "pow", .nat 2, .nat 0]) (.nat (2 ^ 0)) :=
  fun h => nomatch (gives_pow_zero 2).unique h

end SugaredLambda.Library
