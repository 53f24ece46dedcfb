import Mathlib.Algebra.Ring.Int.Defs
import Mathlib.Algebra.Ring.Nat
import SugaredLambda.Bits

/-! Conversions through an engine of words. With any engine that keeps its laws they are `toBits`
and `ofBits`, and inverse to each other up to the width. -/
namespace SugaredLambda.Bits
variable {value : Int} {w : Nat}

theorem capacity_cast (w : Nat) : (capacity w : Int) = 2 ^ w := Int.natCast_pow 2 w

theorem truncate_eq (value : Int) (w : Nat) : truncate value w = (value % 2 ^ w).toNat := by
  rw [truncate, capacity_cast]

theorem truncate_cast (value : Int) (w : Nat) : (truncate value w : Int) = value % 2 ^ w := by
  have hpos : (0 : Int) < 2 ^ w := Int.pow_pos (by decide)
  rw [truncate_eq, Int.toNat_of_nonneg (Int.emod_nonneg _ (Int.ne_of_gt hpos))]

/-- The highest index comes first. -/
theorem toBits_natCast (n w : Nat) :
    toBits n w = (List.range w).reverse.map fun i => n / 2 ^ i % 2 == 1 := by
  induction w with
  | zero => rfl
  | succ w ih =>
    have hbit : (n / capacity w % 2 : Int) = (n / 2 ^ w % 2 : Nat) := by
      rw [capacity_cast]
      norm_cast
    rw [toBits, ih, hbit, List.range_succ, List.reverse_append, List.reverse_singleton,
      List.singleton_append, List.map_cons]
    congr 1
    rw [Bool.eq_iff_iff, beq_iff_eq, beq_iff_eq]
    omega

theorem toBits_truncate (value : Int) (w : Nat) : toBits (truncate value w) w = toBits value w := by
  calc toBits (truncate value w) w
    _ = toBits (value / capacity w * capacity w + truncate value w) w := (toBits_add _ _ w).symm
    _ = toBits value w := by rw [truncate_cast, capacity_cast, Int.ediv_mul_add_emod]

/-- Words of any positive width. A word comes to a number unless it is symbolic. -/
structure Engine where
  Word : Type
  width : Word → Nat
  number? : Word → Option Nat
  literal (value : Int) (w : Nat) : Word
  extract (high low : Nat) (x : Word) : Word
  concat (high low : Word) : Word
  width_literal (value : Int) {w : Nat} : 0 < w → width (literal value w) = w
  number_literal (value : Int) {w : Nat} : 0 < w →
    number? (literal value w) = some (value % 2 ^ w).toNat
  /-- Bits are counted from the low end. -/
  number_extract {x : Word} {n i : Nat} : number? x = some n → i < width x →
    number? (extract i i x) = some (n / 2 ^ i % 2)
  /-- The first word is the high part. -/
  number_concat {x y : Word} {m n : Nat} : number? x = some m → number? y = some n →
    number? (concat x y) = some (m * 2 ^ width y + n)

namespace Engine
variable (e : Engine)

def truncate? (value : Int) (w : Nat) : Option Nat := e.number? (e.literal value w)

/-- The bits from the highest index down; none when one of them stays symbolic. -/
def toBits? (value : Int) (w : Nat) : Option (List Bool) :=
  (List.range w).reverse.mapM fun i => (e.number? (e.extract i i (e.literal value w))).map (· == 1)

def bit (b : Bool) : e.Word := e.literal b.toNat 1

def ofBits? : List Bool → Option Nat
  | [] => some 0
  | b :: bits => e.number? (bits.foldl (fun x b => e.concat x (e.bit b)) (e.bit b))

theorem truncate?_eq (hw : 0 < w) : e.truncate? value w = some (truncate value w) := by
  rw [truncate?, e.number_literal value hw, truncate_eq]

theorem number_extract_literal (hw : 0 < w) {i : Nat} (hi : i < w) :
    e.number? (e.extract i i (e.literal value w)) = some (truncate value w / 2 ^ i % 2) :=
  e.number_extract (e.truncate?_eq hw) (Nat.lt_of_lt_of_eq hi (e.width_literal value hw).symm)

theorem mapM_extract (hw : 0 < w) {indices : List Nat} (h : ∀ i ∈ indices, i < w) :
    indices.mapM (fun i => (e.number? (e.extract i i (e.literal value w))).map (· == 1)) =
      some (indices.map fun i => truncate value w / 2 ^ i % 2 == 1) := by
  induction indices with
  | nil => rfl
  | cons i indices ih =>
    obtain ⟨hi, hrest⟩ := List.forall_mem_cons.1 h
    rw [List.mapM_cons, e.number_extract_literal hw hi, ih hrest]
    rfl

theorem toBits?_eq (hw : 0 < w) : e.toBits? value w = some (toBits value w) := by
  have hindices : ∀ i ∈ (List.range w).reverse, i < w :=
    fun i hi => List.mem_range.1 (List.mem_reverse.1 hi)
  rw [toBits?, e.mapM_extract hw hindices, ← toBits_natCast, toBits_truncate]

theorem number_bit (b : Bool) : e.number? (e.bit b) = some b.toNat := by
  rw [bit, e.number_literal _ Nat.one_pos]
  cases b <;> rfl

theorem width_bit (b : Bool) : e.width (e.bit b) = 1 := e.width_literal _ Nat.one_pos

theorem number_concat_bit {x : e.Word} {n : Nat} (hx : e.number? x = some n) (b : Bool) :
    e.number? (e.concat x (e.bit b)) = some (2*n + b.toNat) := by
  rw [e.number_concat hx (e.number_bit b), e.width_bit, Nat.pow_one, Nat.mul_comm]

theorem number_foldl {x : e.Word} {n : Nat} (hx : e.number? x = some n) (bits : List Bool) :
    e.number? (bits.foldl (fun x b => e.concat x (e.bit b)) x) =
      some (bits.foldl (fun n b => 2*n + b.toNat) n) := by
  induction bits generalizing x n with
  | nil => exact hx
  | cons b bits ih => exact ih (e.number_concat_bit hx b)

theorem ofBits?_eq (bits : List Bool) : e.ofBits? bits = some (ofBits bits) := by
  cases bits with
  | nil => rfl
  | cons b bits =>
    rw [ofBits?, e.number_foldl (e.number_bit b), ofBits, List.foldl_cons,
      Nat.mul_zero, Nat.zero_add]

def bitVectors : Engine where
  Word := (w : Nat) × BitVec w
  width x := x.1
  number? x := some x.2.toNat
  literal value w := ⟨w, BitVec.ofInt w value⟩
  extract high low x := ⟨high - low + 1, x.2.extractLsb high low⟩
  concat x y := ⟨x.1 + y.1, x.2 ++ y.2⟩
  width_literal _ _ _ := rfl
  number_literal value w _ := by rw [BitVec.toNat_ofInt, Int.natCast_pow]; rfl
  number_extract {x n i} hx _ := by
    cases hx
    rw [BitVec.extractLsb_toNat, Nat.sub_self, Nat.zero_add, Nat.pow_one, Nat.shiftRight_eq_div_pow]
  number_concat {x y m n} hx hy := by
    cases hx
    cases hy
    rw [BitVec.toNat_append, ← Nat.shiftLeft_add_eq_or_of_lt y.2.isLt, Nat.shiftLeft_eq]

end Engine

/-- Bits and numbers below the capacity of a width stand for each other, whatever engine
converts them. -/
theorem conversions_inverse (e : Engine) (value : Int) (hw : 0 < w) (bits : List Bool) :
    ((toBits value w).length = w ∧ ofBits (toBits value w) = truncate value w ∧
      (truncate value w : Int) = value % 2 ^ w ∧ truncate value w < 2 ^ w) ∧
    (toBits (ofBits bits) bits.length = bits ∧ ofBits bits < 2 ^ bits.length) ∧
    e.toBits? value w = some (toBits value w) ∧ e.truncate? value w = some (truncate value w) ∧
      e.ofBits? bits = some (ofBits bits) := by
  refine ⟨⟨length_toBits value w, ofBits_toBits value w, ?_, ?_⟩,
    ⟨toBits_ofBits bits, ofBits_lt bits⟩, ?_⟩
  · exact truncate_cast value w
  · exact truncate_lt value w
  · exact ⟨e.toBits?_eq hw, e.truncate?_eq hw, e.ofBits?_eq bits⟩

theorem conversions_inverse_negative :
    0 < 12 ∧
    Engine.bitVectors.toBits? (-200) 12 =
      some [true, true, true, true, false, false, true, true, true, false, false, false] ∧
    ofBits (toBits (-200) 12) = 3896 ∧
    Engine.bitVectors.ofBits? [true, true, false] = some 6 ∧ toBits 6 3 = [true, true, false] := by
  have hw : 0 < 12 := by decide
  obtain ⟨⟨-, hvalue, -⟩, ⟨hbits, -⟩, hto, -, hof⟩ :=
    conversions_inverse Engine.bitVectors (-200) hw [true, true, false]
  have hlow : truncate (-200) 12 = 3896 := by decide
  have hall : toBits (-200) 12 =
    [true, true, true, true, false, false, true, true, true, false, false, false] := by decide
  exact ⟨hw, hall ▸ hto, hlow ▸ hvalue, hof, hbits⟩

end SugaredLambda.Bits
