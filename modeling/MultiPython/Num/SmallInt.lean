import MultiPython.Mpz.Arith

/-!
# Small ints

`py/smallint.h` and `py/smallint.c`. A small int is an integer of fewer bits than a word, and its
arithmetic is the arithmetic of words, so that an operation has to notice when a result is no small
int.
-/

namespace MultiPython.Num

open Mpz

/-- `MICROPY_OBJ_REPR`. -/
inductive ObjRepr where
  | a | b | c | d
deriving DecidableEq

/-- What the code depends on: the representation of objects, `BITS_PER_WORD`, whether there are
floats, and the digits of big integers. -/
structure NumConfig where
  repr : ObjRepr
  wordBits : Nat
  float : Bool
  mpz : MpzConfig
  large : 8 ≤ wordBits ∧ wordBits ≤ 64
  wide : repr = .d → wordBits = 64

namespace NumConfig

variable (config : NumConfig)

/-- The number of bits of a small int without its sign. -/
def smallBits : Nat :=
  match config.repr with
  | .a | .c => config.wordBits - 2
  | .b => config.wordBits - 3
  | .d => 46

/-- `MP_SMALL_INT_MIN`. -/
def smallIntMin : Int := -2 ^ config.smallBits

/-- `MP_SMALL_INT_MAX`. -/
def smallIntMax : Int := 2 ^ config.smallBits - 1

/-- `MP_SMALL_INT_FITS`: the bits above those of a small int are those of its sign. -/
def SmallIntFits (value : Int) : Prop :=
  config.smallIntMin ≤ value ∧ value ≤ config.smallIntMax

instance (value : Int) : Decidable (config.SmallIntFits value) :=
  inferInstanceAs (Decidable (_ ∧ _))

/-- Assign a value to an `mp_int_t`. -/
def word (value : Int) : Int := value.bmod (2 ^ config.wordBits)

/-- The value of `MP_OBJ_NEW_SMALL_INT`, which has no room for more bits. -/
def newSmallInt (value : Int) : Int := value.bmod (2 ^ (config.smallBits + 1))

def mpSmallIntMulOverflow (x y : Int) : Bool :=
  if 0 < x then
    if 0 < y then decide (config.smallIntMax.tdiv y < x)
    else decide (y < config.smallIntMin.tdiv x)
  else
    if 0 < y then decide (x < config.smallIntMin.tdiv y)
    else decide (x ≠ 0 ∧ y < config.smallIntMax.tdiv x)

def mpSmallIntModulo (dividend divisor : Int) : Int :=
  let dividend := dividend.tmod divisor
  if dividend < 0 ∧ 0 < divisor ∨ 0 < dividend ∧ divisor < 0 then config.word (dividend + divisor)
  else dividend

def mpSmallIntFloorDivide (num denom : Int) : Int :=
  let num :=
    if 0 ≤ num then
      if denom < 0 then config.word (num + (-denom - 1)) else num
    else
      if 0 ≤ denom then config.word (num + (-denom + 1)) else num
  num.tdiv denom

variable {config} {x y : Int}

theorem smallBits_add_two_le : config.smallBits + 2 ≤ config.wordBits := by
  have large := config.large
  have wide := config.wide
  rw [smallBits]
  cases kind : config.repr <;>
    simp only [kind, reduceCtorEq, false_implies, true_implies] at wide ⊢ <;> omega

theorem room : 4 * (2 : Int) ^ config.smallBits ≤ 2 ^ config.wordBits := by
  calc 4 * (2 : Int) ^ config.smallBits = 2 ^ (config.smallBits + 2) := by ring
    _ ≤ 2 ^ config.wordBits := pow_le_pow_right₀ (by omega) smallBits_add_two_le

theorem one_lt : 1 < (2 : Int) ^ config.smallBits := by
  refine one_lt_pow₀ (by omega) ?_
  have := config.large
  rw [smallBits]
  split <;> omega

theorem fits_iff :
    config.SmallIntFits x ↔ -2 ^ config.smallBits ≤ x ∧ x < 2 ^ config.smallBits := by
  rw [SmallIntFits, smallIntMin, smallIntMax]
  omega

theorem word_eq_of (lower : -2 ^ config.wordBits ≤ 2 * x) (upper : 2 * x < 2 ^ config.wordBits) :
    config.word x = x := by
  have cast : ((2 ^ config.wordBits : Nat) : Int) = 2 ^ config.wordBits := by push_cast; rfl
  exact Int.bmod_eq_of_le (by omega) (by omega)

theorem word_eq (lower : -2 * 2 ^ config.smallBits ≤ x) (upper : x < 2 * 2 ^ config.smallBits) :
    config.word x = x := by
  have large := @room config
  exact word_eq_of (by omega) (by omega)

theorem newSmallInt_eq (fits : config.SmallIntFits x) : config.newSmallInt x = x := by
  obtain ⟨lower, upper⟩ := fits_iff.mp fits
  have cast : ((2 ^ (config.smallBits + 1) : Nat) : Int) = 2 * 2 ^ config.smallBits := by
    push_cast
    ring
  exact Int.bmod_eq_of_le (by omega) (by omega)

/-- The test for an overflow is exact. -/
theorem mpSmallIntMulOverflow_iff :
    config.mpSmallIntMulOverflow x y = true ↔ ¬ config.SmallIntFits (x * y) := by
  have nonnegative : 0 ≤ config.smallIntMax := by
    have := @one_lt config
    rw [smallIntMax]
    omega
  have lowest : config.smallIntMin = -(config.smallIntMax + 1) := by
    rw [smallIntMin, smallIntMax]
    omega
  -- The lowest small int is divided like the highest, but for a division without a remainder.
  have divided : ∀ {a b : Int}, 0 < a →
      (b < config.smallIntMin.tdiv a ↔ a * b < config.smallIntMin) := by
    intro a b positive
    rw [lowest, Int.neg_tdiv, Int.tdiv_eq_ediv_of_nonneg (by omega), lt_neg,
      Int.ediv_lt_iff_lt_mul positive, Int.neg_mul, Int.mul_comm b a]
    omega
  rw [mpSmallIntMulOverflow]
  split_ifs with xPositive yPositive yPositive
  · have positive := Int.mul_pos xPositive yPositive
    rw [decide_eq_true_iff, Int.tdiv_eq_ediv_of_nonneg nonnegative,
      Int.ediv_lt_iff_lt_mul yPositive, SmallIntFits]
    omega
  · have nonpositive : x * y ≤ 0 := Int.mul_nonpos_of_nonneg_of_nonpos (by omega) (by omega)
    rw [decide_eq_true_iff, divided xPositive, SmallIntFits]
    omega
  · have nonpositive : x * y ≤ 0 := Int.mul_nonpos_of_nonpos_of_nonneg (by omega) (by omega)
    rw [decide_eq_true_iff, divided yPositive, SmallIntFits, Int.mul_comm y x]
    omega
  · have positive : 0 ≤ x * y := Int.mul_nonneg_of_nonpos_of_nonpos (by omega) (by omega)
    rw [decide_eq_true_iff, SmallIntFits]
    by_cases zero : x = 0
    · simp [zero]
      omega
    · have opposite : config.smallIntMax.tdiv x = -(config.smallIntMax / -x) := by
        rw [← Int.tdiv_eq_ediv_of_nonneg nonnegative, Int.tdiv_neg, Int.neg_neg]
      rw [opposite, lt_neg, Int.ediv_lt_iff_lt_mul (by omega), Int.neg_mul_neg, Int.mul_comm y x]
      omega

theorem neg_ediv_eq {num denom : Int} (positive : 0 < denom) :
    -((num + denom - 1) / denom) = -num / denom := by
  have parts := Int.mul_ediv_add_emod (num + denom - 1) denom
  have nonnegative := Int.emod_nonneg (num + denom - 1) positive.ne'
  have small := Int.emod_lt_of_pos (num + denom - 1) positive
  refine (((Int.ediv_emod_unique positive).mpr
    ⟨?_, ?_, ?_⟩ : _ ∧ -num % denom = denom - 1 - (num + denom - 1) % denom).1).symm
  · rw [Int.mul_neg]
    omega
  · omega
  · omega

theorem mpSmallIntFloorDivide_eq (xFits : config.SmallIntFits x) (yFits : config.SmallIntFits y)
    (nonzero : y ≠ 0) : config.mpSmallIntFloorDivide x y = x.fdiv y := by
  obtain ⟨xLower, xUpper⟩ := fits_iff.mp xFits
  obtain ⟨yLower, yUpper⟩ := fits_iff.mp yFits
  rw [mpSmallIntFloorDivide]
  split_ifs with xSign ySign ySign
  · obtain ⟨denom, rfl⟩ : ∃ denom, y = -denom := ⟨-y, by omega⟩
    rw [word_eq (by omega) (by omega), Int.tdiv_neg, Int.tdiv_eq_ediv_of_nonneg (by omega)]
    have mirrored : x.fdiv (-denom) = (-x).fdiv denom := by
      rw [← Int.neg_fdiv_neg, Int.neg_neg]
    rw [mirrored, Int.fdiv_eq_ediv_of_nonneg _ (by omega), ← neg_ediv_eq (by omega)]
    congr 2
    omega
  · exact (Int.fdiv_eq_tdiv_of_nonneg xSign (by omega)).symm
  · obtain ⟨num, rfl⟩ : ∃ num, x = -num := ⟨-x, by omega⟩
    rw [word_eq (by omega) (by omega), Int.fdiv_eq_ediv_of_nonneg _ ySign, ← neg_ediv_eq (by omega)]
    have opposite : -num + (-y + 1) = -(num + y - 1) := by omega
    rw [opposite, Int.neg_tdiv, Int.tdiv_eq_ediv_of_nonneg (by omega)]
  · rw [← Int.neg_fdiv_neg, Int.fdiv_eq_tdiv_of_nonneg (by omega) (by omega), Int.tdiv_neg,
      Int.neg_tdiv, Int.neg_neg]

theorem mpSmallIntModulo_eq (yFits : config.SmallIntFits y) (nonzero : y ≠ 0) :
    config.mpSmallIntModulo x y = x.fmod y := by
  obtain ⟨yLower, yUpper⟩ := fits_iff.mp yFits
  have nonnegative := Int.emod_nonneg x nonzero
  have small : x % y < y.natAbs := Int.emod_lt x nonzero
  -- Neither sign leaves the word.
  have exact : ∀ rest : Int, -(y.natAbs : Int) < rest → rest < y.natAbs →
      config.word (rest + y) = rest + y := fun rest lower upper =>
    word_eq (by omega) (by omega)
  rw [mpSmallIntModulo, Int.fmod_eq_emod, Int.tmod_eq_emod]
  simp only [Int.dvd_iff_emod_eq_zero]
  generalize x % y = remainder at *
  split_ifs <;> (try rw [exact _ (by omega) (by omega)]) <;> omega

end NumConfig

end MultiPython.Num
