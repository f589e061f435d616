import Mathlib.Algebra.Order.Ring.Int
import WaccArm.Arm.Instr
import WaccArm.Arm.Word

namespace WaccArm

/-- What a register holds. -/
abbrev Word := BitVec 32

structure Flags where
  negative : Bool
  zero : Bool
  carry : Bool
  overflow : Bool
deriving DecidableEq, Repr

/-- Whether the flags meet a condition. -/
def Cond.holds (flags : Flags) : Cond → Bool
  | always => true
  | eq => flags.zero
  | ne => !flags.zero
  | gt => !flags.zero && flags.negative == flags.overflow
  | ge => flags.negative == flags.overflow
  | lt => flags.negative != flags.overflow
  | le => flags.zero || flags.negative != flags.overflow
  | vs => flags.overflow
  | cs => flags.carry

namespace Word

/-- Whether a number has 32 bits and a sign. -/
def Fits (n : Int) : Prop := -2 ^ 31 ≤ n ∧ n < 2 ^ 31

instance (n : Int) : Decidable (Fits n) := inferInstanceAs (Decidable (_ ∧ _))

theorem fits_toInt (x : Word) : Fits x.toInt := ⟨BitVec.le_toInt x, BitVec.toInt_lt⟩

/-- The signed reading of a word is one of its number and nothing else. -/
theorem fits_signed (n : Int) : Fits (signed n) := by
  simp only [Fits, signed, Int.bmod_def]
  split <;> omega

/-- Numbers that fit a word are not changed. -/
theorem signed_eq_self_iff (n : Int) : signed n = n ↔ Fits n :=
  ⟨fun h => h ▸ fits_signed n, fun h => signed_eq_self h.1 h.2⟩

/-- A word holds a number up to multiples of 2 ^ 32. -/
theorem toInt_ofInt (n : Int) : (BitVec.ofInt 32 n : Word).toInt = signed n :=
  BitVec.toInt_ofInt n

theorem toInt_ofInt_of_fits {n : Int} (h : Fits n) : (BitVec.ofInt 32 n : Word).toInt = n := by
  rw [toInt_ofInt, (signed_eq_self_iff n).2 h]

/-- Reducing a number to its signed reading does not change the word. -/
theorem ofInt_signed (n : Int) : (BitVec.ofInt 32 (signed n) : Word) = BitVec.ofInt 32 n := by
  apply BitVec.eq_of_toInt_eq
  rw [toInt_ofInt, toInt_ofInt, (signed_eq_self_iff _).2 (fits_signed n)]

/-- A remainder fits if the dividend does. -/
theorem fits_tmod {m : Int} (n : Int) (h : Fits m) : Fits (m.tmod n) := by
  have habs := Int.natAbs_tmod m n
  have hle : (m.natAbs % n.natAbs) ≤ m.natAbs := Nat.mod_le _ _
  simp only [Fits] at h ⊢
  rcases Int.le_total 0 m with hm | hm
  · have := Int.tmod_nonneg n hm
    omega
  · have := Int.tmod_nonneg (a := -m) n (by omega)
    rw [Int.neg_tmod] at this
    omega

/-- The sum of two words and a carry, with the flags that the adder sets. -/
def addWithCarry (x y : Word) (carry : Bool) : Word × Flags :=
  let sum := x + y + (if carry then 1 else 0)
  (sum,
    { negative := sum.msb
      zero := decide (sum = 0)
      carry := decide (sum.toNat ≠ x.toNat + y.toNat + carry.toNat)
      overflow := decide (sum.toInt ≠ x.toInt + y.toInt + carry.toNat) })

/-- The difference of two words, with its flags. -/
def subtract (x y : Word) : Word × Flags := addWithCarry x (~~~y) true

/-- The complement of a number in two's complement. -/
theorem toInt_not (x : Word) : (~~~x).toInt = -x.toInt - 1 := by
  have hx := fits_toInt x
  have hneg : (-x).toInt = signed (-x.toInt) := BitVec.toInt_neg
  rw [BitVec.not_eq_neg_add, BitVec.toInt_sub, hneg]
  simp only [Fits] at hx
  simp only [signed, BitVec.toInt_one (by decide : 1 < 32), Int.bmod_def]
  split <;> split <;> omega

/-- The adder adds up to multiples of 2 ^ 32. -/
theorem addWithCarry_toInt (x y : Word) (carry : Bool) :
    (addWithCarry x y carry).1.toInt = signed (x.toInt + y.toInt + carry.toNat) := by
  cases carry
  · simp [addWithCarry, signed]
  · simp [addWithCarry, signed, BitVec.toInt_add]

/-- The overflow flag tells that the exact sum does not fit. -/
theorem addWithCarry_overflow (x y : Word) (carry : Bool) :
    (addWithCarry x y carry).2.overflow = decide (¬ Fits (x.toInt + y.toInt + carry.toNat)) := by
  have hiff := signed_eq_self_iff (x.toInt + y.toInt + carry.toNat)
  rw [← addWithCarry_toInt x y carry] at hiff
  exact decide_eq_decide.2 (not_congr hiff)

/-- Subtraction is exact up to multiples of 2 ^ 32. -/
theorem subtract_toInt (x y : Word) : (subtract x y).1.toInt = signed (x.toInt - y.toInt) := by
  rw [subtract, addWithCarry_toInt, toInt_not]
  congr 1
  simp only [Bool.toNat_true]
  omega

/-- The overflow flag says that the difference does not fit. -/
theorem subtract_overflow (x y : Word) :
    (subtract x y).2.overflow = decide (¬ Fits (x.toInt - y.toInt)) := by
  have hexact : x.toInt + (-y.toInt - 1) + (true.toNat : Int) = x.toInt - y.toInt := by
    simp only [Bool.toNat_true]
    omega
  rw [subtract, addWithCarry_overflow, toInt_not, hexact]

/-- The zero flag says that both are equal. -/
theorem subtract_zero (x y : Word) : (subtract x y).2.zero = decide (x = y) := by
  have hx := fits_toInt x
  have hy := fits_toInt y
  have hdiff := subtract_toInt x y
  have hzero : (0 : Word).toInt = 0 := rfl
  simp only [Fits] at hx hy
  have hiff : (subtract x y).1 = 0 ↔ x = y := by
    rw [← BitVec.toInt_inj, ← BitVec.toInt_inj, hdiff, hzero, signed, Int.bmod_def]
    split <;> omega
  exact decide_eq_decide.2 hiff

/-- The order of two words can be read off their difference although it may not fit. -/
theorem subtract_less (x y : Word) :
    ((subtract x y).2.negative != (subtract x y).2.overflow) = decide (x.toInt < y.toInt) := by
  have hx := fits_toInt x
  have hy := fits_toInt y
  have hsign : (subtract x y).2.negative = decide (signed (x.toInt - y.toInt) < 0) := by
    rw [← subtract_toInt, ← BitVec.msb_eq_toInt]
    rfl
  have hless : x.toInt < y.toInt ↔ (signed (x.toInt - y.toInt) < 0 ↔ Fits (x.toInt - y.toInt)) := by
    simp only [Fits, signed, Int.bmod_def] at hx hy ⊢
    split <;> omega
  rw [hsign, subtract_overflow]
  by_cases hneg : signed (x.toInt - y.toInt) < 0 <;> by_cases hfit : Fits (x.toInt - y.toInt) <;>
    simp [hneg, hfit, hless]

/-- The carry of a difference tells the order of the words without a sign. -/
theorem subtract_carry (x y : Word) : (subtract x y).2.carry = decide (y.toNat ≤ x.toNat) := by
  simp only [subtract, addWithCarry, if_true, Bool.toNat_true, decide_eq_decide]
  bv_omega

/-- The two halves of the exact product, the low one first. -/
def product (x y : Word) : Word × Word :=
  (BitVec.ofInt 32 (x.toInt * y.toInt), BitVec.ofInt 32 (x.toInt * y.toInt / 2 ^ 32))

/-- The product fits if and only if its high half repeats the sign of its low half. -/
theorem product_fits_iff (x y : Word) :
    (product x y).2 = (product x y).1.sshiftRight 31 ↔ Fits (x.toInt * y.toInt) := by
  have hhi : x.toInt * y.toInt ≤ 2 ^ 62 := BitVec.toInt_mul_toInt_le
  have hlo : -2 ^ 62 ≤ x.toInt * y.toInt := by
    have := BitVec.le_toInt_mul_toInt (x := x) (y := y)
    omega
  generalize hprod : x.toInt * y.toInt = p at hhi hlo
  simp only [product, hprod]
  rw [← BitVec.toInt_inj, BitVec.toInt_sshiftRight, toInt_ofInt, toInt_ofInt,
    Int.shiftRight_eq_div_pow]
  simp only [signed, Int.bmod_def, Fits]
  split <;> split <;> omega

end Word

end WaccArm
