/-! Unsigned binary words, most significant bit first. Main statements: the bits of a value read as
the value modulo the capacity of the width (`ofBits_toBits`), and every list of bits is the bits of
what it reads as (`toBits_ofBits`). -/
namespace SugaredLambda.Bits

def charWidth : Nat := 8
def wordWidth : Nat := 32

/-- The number of words of a width. -/
def capacity (width : Nat) : Nat := Nat.pow 2 width

theorem capacity_succ (width : Nat) : capacity (width+1) = capacity width * 2 := rfl

theorem capacity_pos (width : Nat) : 0 < capacity width := by
  induction width with
  | zero => decide
  | succ n ih => rw [capacity_succ]; omega

/-- A value as an unsigned integer of `width` bits. -/
def truncate (value : Int) (width : Nat) : Nat := (value % capacity width).toNat

/-- The `width` low bits of a value. -/
def toBits (value : Int) : Nat → List Bool
  | 0 => []
  | width+1 => (value / capacity width % 2 == 1) :: toBits value width

def ofBits (bits : List Bool) : Nat := bits.foldl (fun n b => 2*n + b.toNat) 0

theorem length_toBits (value : Int) (width : Nat) : (toBits value width).length = width := by
  induction width with
  | zero => rfl
  | succ n ih => simp [toBits, ih]

theorem foldl_eq (bits : List Bool) (start : Nat) :
    bits.foldl (fun n b => 2*n + b.toNat) start = start * capacity bits.length + ofBits bits := by
  induction bits generalizing start with
  | nil => exact (Nat.mul_one start).symm
  | cons b bits ih =>
    rw [ofBits, List.foldl_cons, List.foldl_cons, ih, ih (2*0 + b.toNat), List.length_cons,
      capacity_succ]
    grind

theorem ofBits_cons (b : Bool) (bits : List Bool) :
    ofBits (b :: bits) = b.toNat * capacity bits.length + ofBits bits := by
  rw [ofBits, List.foldl_cons, foldl_eq, Nat.mul_zero, Nat.zero_add]

theorem ofBits_lt (bits : List Bool) : ofBits bits < capacity bits.length := by
  induction bits with
  | nil => decide
  | cons b bits ih =>
    rw [ofBits_cons, List.length_cons, capacity_succ]
    cases b <;> simp <;> omega

private theorem emod_double (value p : Int) (hp : 0 < p) :
    value % (p * 2) = value / p % 2 * p + value % p := by
  have hq : value / (p * 2) = value / p / 2 := (Int.ediv_ediv_of_nonneg (Int.le_of_lt hp)).symm
  have h₁ := Int.emod_add_mul_ediv value (p * 2)
  have h₂ := Int.emod_add_mul_ediv value p
  have h₃ := congrArg (p * ·) (Int.emod_add_mul_ediv (value / p) 2)
  rw [hq] at h₁
  simp only [Int.mul_add] at h₃
  grind

theorem truncate_succ (value : Int) (width : Nat) :
    truncate value (width+1) =
      (value / capacity width % 2 == 1).toNat * capacity width + truncate value width := by
  have hp : (0 : Int) < capacity width := by exact_mod_cast capacity_pos width
  have h := emod_double value _ hp
  have hr := Int.emod_nonneg value (Int.ne_of_gt hp)
  simp only [truncate, capacity_succ, Int.natCast_mul]
  generalize capacity width = p at *
  change (value % ((p : Int) * 2)).toNat = _
  rw [h]
  rcases Int.emod_two_eq (value / (p : Int)) with hb | hb <;> rw [hb]
  · simp
  · simp only [Int.one_mul, BEq.rfl, Bool.toNat_true, Nat.one_mul]; omega

theorem ofBits_toBits (value : Int) (width : Nat) :
    ofBits (toBits value width) = truncate value width := by
  induction width with
  | zero => simp [toBits, ofBits, truncate, capacity]
  | succ n ih => rw [toBits, ofBits_cons, length_toBits, ih, truncate_succ]

theorem truncate_lt (value : Int) (width : Nat) : truncate value width < capacity width := by
  have hlt := ofBits_lt (toBits value width)
  rwa [ofBits_toBits, length_toBits] at hlt

/-- Bits above the width do not count. -/
theorem toBits_add (value k : Int) (width : Nat) :
    toBits (k * capacity width + value) width = toBits value width := by
  induction width generalizing k with
  | zero => rfl
  | succ n ih =>
    have hp : (capacity n : Int) ≠ 0 := by exact_mod_cast Nat.ne_of_gt (capacity_pos n)
    have hk : k * capacity (n+1) = 2*k * capacity n := by
      rw [capacity_succ, Int.natCast_mul]; grind
    rw [hk, toBits, toBits, ih, Int.add_comm, Int.add_mul_ediv_right _ _ hp,
      Int.add_mul_emod_self_left]

theorem toBits_ofBits (bits : List Bool) : toBits (ofBits bits) bits.length = bits := by
  induction bits with
  | nil => rfl
  | cons b bits ih =>
    have hlt : (ofBits bits : Int) < capacity bits.length := by exact_mod_cast ofBits_lt bits
    have hp : (capacity bits.length : Int) ≠ 0 := by
      exact_mod_cast Nat.ne_of_gt (capacity_pos bits.length)
    rw [ofBits_cons, List.length_cons, toBits, Int.natCast_add, Int.natCast_mul, toBits_add, ih,
      Int.add_comm, Int.add_mul_ediv_right _ _ hp, Int.ediv_eq_zero_of_lt (by omega) hlt]
    cases b <;> rfl

end SugaredLambda.Bits
