import MultiPython.Num.SmallInt

/-!
# Operators on small ints

The part of `mp_binary_op` and of `mp_unary_op` of `py/runtime.c` for small ints, and the part of
`mp_obj_int_binary_op` of `py/objint_mpz.c` that it falls back to. An operator and its in-place form
share every branch. Division with `/` and powers with a negative exponent are left to the arithmetic
of floats.
-/

namespace MultiPython.Num

open Mpz

/-- `mp_binary_op_t`, the operators of integers. -/
inductive BinaryOp where
  | equal | notEqual | less | more | lessEqual | moreEqual
  | or | xor | and | lshift | rshift
  | add | subtract | multiply | floorDivide | modulo | divmod | power
deriving DecidableEq

/-- `mp_unary_op_t`, the operators of integers. -/
inductive UnaryOp where
  | not | bool | hash | positive | int | negative | abs | invert
deriving DecidableEq

/-- An object of the type `int`. -/
inductive IntObj where
  | small (value : Int)
  | big (value : MpzT)

/-- What an operator comes to. -/
inductive Result where
  | int (obj : IntObj)
  | bool (value : Bool)
  | tuple (first second : IntObj)
  | negativeShiftCount
  | divideByZero
  | negativePower
  | float

namespace NumConfig

variable (config : NumConfig)

def mpObjNewIntFromLl (value : Int) : IntObj := .big (mpzSetFromLl config.mpz value)

def mpObjNewInt (value : Int) : IntObj :=
  if config.SmallIntFits value then .small (config.newSmallInt value)
  else config.mpObjNewIntFromLl value

/-- `mp_obj_int_binary_op` for a big integer and a small int, and the operators that small ints leave
to it. -/
def mpObjIntBinaryOp (op : BinaryOp) (zlhs : MpzT) (rhs : Int) : Option Result :=
  let zrhs := mpzSetFromInt config.mpz mpzInitZero rhs
  match op with
  | .multiply => some (.int (.big (mpzMulInpl config.mpz mpzInitZero zlhs zrhs)))
  | .lshift =>
    if rhs < 0 then some .negativeShiftCount
    else some (.int (.big (mpzShlInpl config.mpz zlhs rhs.toNat)))
  | .power =>
    if zrhs.neg then some (if config.float then .float else .negativePower)
    else (mpzPowInpl config.mpz mpzInitZero zlhs zrhs).map fun res => .int (.big res)
  | _ => none

/-- The loop of `MP_BINARY_OP_POWER`, which returns nothing where it goes to `power_overflow`. -/
def powerLoop (ans lhs : Int) (rhs : Nat) : Option Int :=
  if rhs = 0 then some ans
  else
    if rhs % 2 = 1 ∧ config.mpSmallIntMulOverflow ans lhs then none
    else
      let ans := if rhs % 2 = 1 then config.word (ans * lhs) else ans
      if rhs = 1 then some ans
      else if config.mpSmallIntMulOverflow lhs lhs then none
      else powerLoop ans (config.word (lhs * lhs)) (rhs / 2)
termination_by rhs

/-- `mp_binary_op`, for small ints. -/
def mpBinaryOp (op : BinaryOp) (lhs rhs : Int) : Option Result :=
  match op with
  | .equal => some (.bool (decide (lhs = rhs)))
  | .notEqual => some (.bool (decide (lhs ≠ rhs)))
  | .less => some (.bool (decide (lhs < rhs)))
  | .more => some (.bool (decide (rhs < lhs)))
  | .lessEqual => some (.bool (decide (lhs ≤ rhs)))
  | .moreEqual => some (.bool (decide (rhs ≤ lhs)))
  | .or => some (.int (config.mpObjNewInt (Int.lor lhs rhs)))
  | .xor => some (.int (config.mpObjNewInt (Int.xor lhs rhs)))
  | .and => some (.int (config.mpObjNewInt (Int.land lhs rhs)))
  | .lshift =>
    if rhs < 0 then some .negativeShiftCount
    else if config.wordBits ≤ rhs ∨ config.smallIntMax / 2 ^ rhs.toNat < lhs ∨
        lhs < config.smallIntMin / 2 ^ rhs.toNat then
      config.mpObjIntBinaryOp .lshift (mpzSetFromLl config.mpz lhs) rhs
    else some (.int (config.mpObjNewInt (config.word (lhs * 2 ^ rhs.toNat))))
  | .rshift =>
    if rhs < 0 then some .negativeShiftCount
    else
      let rhs := if config.wordBits ≤ rhs then config.wordBits - 1 else rhs.toNat
      some (.int (config.mpObjNewInt (lhs / 2 ^ rhs)))
  | .add => some (.int (config.mpObjNewInt (config.word (lhs + rhs))))
  | .subtract => some (.int (config.mpObjNewInt (config.word (lhs - rhs))))
  | .multiply =>
    if config.mpSmallIntMulOverflow lhs rhs then
      config.mpObjIntBinaryOp .multiply (mpzSetFromLl config.mpz lhs) rhs
    else some (.int (.small (config.newSmallInt (config.word (lhs * rhs)))))
  | .floorDivide =>
    if rhs = 0 then some .divideByZero
    else some (.int (config.mpObjNewInt (config.mpSmallIntFloorDivide lhs rhs)))
  | .modulo =>
    if rhs = 0 then some .divideByZero
    else some (.int (config.mpObjNewInt (config.mpSmallIntModulo lhs rhs)))
  | .divmod =>
    if rhs = 0 then some .divideByZero
    else some (.tuple (.small (config.newSmallInt (config.mpSmallIntFloorDivide lhs rhs)))
      (.small (config.newSmallInt (config.mpSmallIntModulo lhs rhs))))
  | .power =>
    if rhs < 0 then some (if config.float then .float else .negativePower)
    else
      match config.powerLoop 1 lhs rhs.toNat with
      | some ans => some (.int (config.mpObjNewInt ans))
      | none => config.mpObjIntBinaryOp .power (mpzSetFromLl config.mpz lhs) rhs

/-- `mp_unary_op`, for a small int. -/
def mpUnaryOp (op : UnaryOp) (val : Int) : Result :=
  match op with
  | .not => .bool (decide (val = 0))
  | .bool => .bool (decide (val ≠ 0))
  | .hash | .positive | .int => .int (.small val)
  | .negative =>
    if val = config.smallIntMin then .int (config.mpObjNewInt (config.word (-val)))
    else .int (.small (config.newSmallInt (config.word (-val))))
  | .abs =>
    if 0 ≤ val then .int (.small val)
    else if val = config.smallIntMin then .int (config.mpObjNewInt (config.word (-val)))
    else .int (.small (config.newSmallInt (config.word (-val))))
  | .invert => .int (.small (config.newSmallInt (config.word (-val - 1))))

/-! ## What the operators mean -/

/-- The integers of Python: what an operator is mathematically. -/
inductive Meaning where
  | int (value : Int)
  | bool (value : Bool)
  | tuple (first second : Int)
  | negativeShiftCount
  | divideByZero
  | noInteger

/-- The meaning of a binary operator. -/
def binaryMeaning (op : BinaryOp) (lhs rhs : Int) : Meaning :=
  match op with
  | .equal => .bool (decide (lhs = rhs))
  | .notEqual => .bool (decide (lhs ≠ rhs))
  | .less => .bool (decide (lhs < rhs))
  | .more => .bool (decide (lhs > rhs))
  | .lessEqual => .bool (decide (lhs ≤ rhs))
  | .moreEqual => .bool (decide (lhs ≥ rhs))
  | .or => .int (Int.lor lhs rhs)
  | .xor => .int (Int.xor lhs rhs)
  | .and => .int (Int.land lhs rhs)
  | .lshift => if rhs < 0 then .negativeShiftCount else .int (lhs * 2 ^ rhs.toNat)
  | .rshift => if rhs < 0 then .negativeShiftCount else .int (lhs.fdiv (2 ^ rhs.toNat))
  | .add => .int (lhs + rhs)
  | .subtract => .int (lhs - rhs)
  | .multiply => .int (lhs * rhs)
  | .floorDivide => if rhs = 0 then .divideByZero else .int (lhs.fdiv rhs)
  | .modulo => if rhs = 0 then .divideByZero else .int (lhs.fmod rhs)
  | .divmod => if rhs = 0 then .divideByZero else .tuple (lhs.fdiv rhs) (lhs.fmod rhs)
  | .power => if rhs < 0 then .noInteger else .int (lhs ^ rhs.toNat)

/-- The meaning of a unary operator. The hash of a small int is the small int. -/
def unaryMeaning (op : UnaryOp) (val : Int) : Meaning :=
  match op with
  | .not => .bool (decide (val = 0))
  | .bool => .bool (decide (val ≠ 0))
  | .hash | .positive | .int => .int val
  | .negative => .int (-val)
  | .abs => .int |val|
  | .invert => .int (-val - 1)

/-- An object is an integer in its one form: a small int exactly when the integer fits. -/
def Denotes (obj : IntObj) (value : Int) : Prop :=
  match obj with
  | .small small => config.SmallIntFits value ∧ small = value
  | .big z => ¬ config.SmallIntFits value ∧ z.value config.mpz = value ∧ Canonical config.mpz z

/-- What an operator comes to is what it means. -/
def Agrees (meaning : Meaning) (result : Option Result) : Prop :=
  match meaning with
  | .int value => ∃ obj, result = some (.int obj) ∧ config.Denotes obj value
  | .bool value => result = some (.bool value)
  | .tuple first second => ∃ obj other, result = some (.tuple obj other) ∧
      config.Denotes obj first ∧ config.Denotes other second
  | .negativeShiftCount => result = some .negativeShiftCount
  | .divideByZero => result = some .divideByZero
  | .noInteger => result = some .float ∨ result = some .negativePower

/-! ## Results -/

section Results

variable {config} {lhs rhs value : Int}

theorem denotes_small (fits : config.SmallIntFits value) :
    config.Denotes (.small (config.newSmallInt value)) value :=
  ⟨fits, newSmallInt_eq fits⟩

theorem denotes_big {z : MpzT} (large : ¬ config.SmallIntFits value)
    (isValue : z.value config.mpz = value) (formed : WellFormed config.mpz z) :
    config.Denotes (.big z) value := by
  refine ⟨large, isValue, formed.digits, formed.normal, fun _ empty => large ?_⟩
  have zero : value = 0 := isValue ▸ (MpzT.value_eq_zero_iff formed).mpr empty
  have := @one_lt config
  rw [fits_iff]
  omega

theorem denotes_mpObjNewInt (value : Int) : config.Denotes (config.mpObjNewInt value) value := by
  rw [mpObjNewInt]
  split_ifs with fits
  · exact denotes_small fits
  · obtain ⟨isValue, formed⟩ := @mpzSetFromLl_spec config.mpz value
    exact denotes_big fits isValue formed

theorem ediv_two_pow {bits more : Nat} (lower : -2 ^ bits ≤ value) (upper : value < 2 ^ bits)
    (atLeast : bits ≤ more) : value / 2 ^ more = if value < 0 then -1 else 0 := by
  have larger : (2 : Int) ^ bits ≤ 2 ^ more := pow_le_pow_right₀ (by omega) atLeast
  split_ifs with negative
  · exact ((Int.ediv_emod_unique (by omega)).mpr
      ⟨by omega, by omega, by omega⟩ : _ ∧ value % 2 ^ more = value + 2 ^ more).1
  · exact Int.ediv_eq_zero_of_lt (by omega) (by omega)

/-- A quotient of small ints is a small int but for the lowest one divided by minus one. -/
theorem fdiv_fits_iff (lhsFits : config.SmallIntFits lhs) (rhsFits : config.SmallIntFits rhs)
    (nonzero : rhs ≠ 0) :
    config.SmallIntFits (lhs.fdiv rhs) ↔ ¬ (lhs = config.smallIntMin ∧ rhs = -1) := by
  obtain ⟨lower, upper⟩ := fits_iff.mp lhsFits
  have positive := @one_lt config
  rw [fits_iff, smallIntMin]
  rcases lt_or_gt_of_ne nonzero with negative | positiveRhs
  · obtain ⟨denom, rfl⟩ : ∃ denom, rhs = -denom := ⟨-rhs, by omega⟩
    have mirrored : lhs.fdiv (-denom) = -lhs / denom := by
      rw [← Int.neg_fdiv_neg, Int.neg_neg, Int.fdiv_eq_ediv_of_nonneg _ (by omega)]
    rw [mirrored]
    by_cases one : denom = 1
    · rw [one, Int.ediv_one]
      omega
    · have twice : 2 * 2 ^ config.smallBits ≤ denom * 2 ^ config.smallBits :=
        Int.mul_le_mul_of_nonneg_right (by omega) (by omega)
      rw [Int.mul_comm denom] at twice
      refine iff_of_true ⟨?_, ?_⟩ (by omega)
      · rw [Int.le_ediv_iff_mul_le (by omega), Int.neg_mul]
        omega
      · rw [Int.ediv_lt_iff_lt_mul (by omega)]
        omega
  · have once : 1 * 2 ^ config.smallBits ≤ rhs * 2 ^ config.smallBits :=
      Int.mul_le_mul_of_nonneg_right (by omega) (by omega)
    rw [Int.mul_comm rhs] at once
    rw [Int.fdiv_eq_ediv_of_nonneg _ (by omega)]
    refine iff_of_true ⟨?_, ?_⟩ (by omega)
    · rw [Int.le_ediv_iff_mul_le (by omega), Int.neg_mul]
      omega
    · rw [Int.ediv_lt_iff_lt_mul (by omega)]
      omega

theorem fmod_fits (rhsFits : config.SmallIntFits rhs) (nonzero : rhs ≠ 0) :
    config.SmallIntFits (lhs.fmod rhs) := by
  obtain ⟨lower, upper⟩ := fits_iff.mp rhsFits
  have nonnegative := Int.emod_nonneg lhs nonzero
  have small : lhs % rhs < rhs.natAbs := Int.emod_lt lhs nonzero
  have positive := @one_lt config
  rw [fits_iff, Int.fmod_eq_emod]
  simp only [Int.dvd_iff_emod_eq_zero]
  split_ifs <;> omega

/-! ## Powers -/

/-- Factors of a power that are all but one or are no more than one in magnitude. -/
def Grows (ans lhs : Int) : Prop :=
  2 ≤ |lhs| ∧ (ans = 1 ∨ 2 ≤ |ans|) ∨ |lhs| ≤ 1 ∧ |ans| ≤ 1

theorem Grows.mul {ans : Int} (grows : Grows ans lhs) : Grows (ans * lhs) lhs := by
  rcases grows with ⟨large, rfl | more⟩ | ⟨small, less⟩
  · exact .inl ⟨large, .inr (by rwa [Int.one_mul])⟩
  · refine .inl ⟨large, .inr ?_⟩
    rw [abs_mul]
    nlinarith
  · refine .inr ⟨small, ?_⟩
    rw [abs_mul]
    exact mul_le_one₀ less (abs_nonneg _) small

theorem Grows.square {ans : Int} (grows : Grows ans lhs) : Grows ans (lhs * lhs) := by
  rcases grows with ⟨large, more⟩ | ⟨small, less⟩
  · refine .inl ⟨?_, more⟩
    rw [abs_mul]
    nlinarith
  · refine .inr ⟨?_, less⟩
    rw [abs_mul]
    exact mul_le_one₀ small (abs_nonneg _) small

theorem le_abs_of_large (large : ¬ config.SmallIntFits value) : 2 ^ config.smallBits ≤ |value| := by
  rw [fits_iff] at large
  rcases le_total 0 value with sign | sign
  · rw [abs_of_nonneg sign]
    omega
  · rw [abs_of_nonpos sign]
    omega

theorem large_mul {factor : Int} (large : 2 ^ config.smallBits ≤ |value|) (more : 2 ≤ |factor|) :
    ¬ config.SmallIntFits (value * factor) := by
  intro fits
  obtain ⟨lower, upper⟩ := fits_iff.mp fits
  have positive := @one_lt config
  have magnitude : |value * factor| ≤ 2 ^ config.smallBits := abs_le.mpr ⟨lower, upper.le⟩
  rw [abs_mul] at magnitude
  nlinarith

theorem square_le_pow {exponent : Nat} (positive : exponent ≠ 0) (nonzero : lhs ≠ 0) :
    lhs * lhs ≤ (lhs * lhs) ^ exponent := by
  have one : 1 ≤ lhs * lhs := by
    have := mul_self_pos.mpr nonzero
    omega
  exact le_self_pow₀ one positive

theorem large_mul_pow (large : ¬ config.SmallIntFits value) (more : 2 ≤ |lhs|) (exponent : Nat) :
    ¬ config.SmallIntFits (value * (lhs * lhs) ^ exponent) := by
  by_cases none : exponent = 0
  · rwa [none, pow_zero, Int.mul_one]
  · have nonzero : lhs ≠ 0 := by
      rintro rfl
      simp at more
    have square : 4 ≤ lhs * lhs := by
      rw [← abs_mul_abs_self]
      nlinarith
    have grown := square_le_pow none nonzero
    exact large_mul (le_abs_of_large large) (by rw [abs_of_nonneg (by omega)]; omega)

/-- Powers are exact where they are small ints, and are noticed where they are not. -/
theorem powerLoop_spec (rhs : Nat) {ans : Int} (grows : Grows ans lhs)
    (ansFits : config.SmallIntFits ans) (lhsFits : config.SmallIntFits lhs) :
    config.powerLoop ans lhs rhs =
      if config.SmallIntFits (ans * lhs ^ rhs) then some (ans * lhs ^ rhs) else none := by
  induction rhs using Nat.strong_induction_on generalizing ans lhs with
  | _ rhs ih =>
    have positive := @one_lt config
    have parts : ans * lhs ^ rhs = ans * lhs ^ (rhs % 2) * (lhs * lhs) ^ (rhs / 2) := by
      conv_lhs => rw [← Nat.mod_add_div rhs 2, pow_add, pow_mul, ← Int.mul_assoc, sq]
    rw [powerLoop]
    by_cases zero : rhs = 0
    · rw [zero, if_pos rfl, pow_zero, Int.mul_one, if_pos ansFits]
    rw [if_neg zero]
    by_cases overflows : rhs % 2 = 1 ∧ config.mpSmallIntMulOverflow ans lhs
    · have large := mpSmallIntMulOverflow_iff.mp overflows.2
      have more : 2 ≤ |lhs| := by
        rcases grows.mul with ⟨more, -⟩ | ⟨-, less⟩
        · exact more
        · exact absurd (fits_iff.mpr (by have := abs_le.mp less; omega)) large
      rw [if_pos overflows, parts, overflows.1, pow_one, if_neg (large_mul_pow large more _)]
    rw [if_neg overflows]
    -- The answer after this bit of the exponent.
    obtain ⟨next, isNext, isProduct, nextFits, nextGrows⟩ : ∃ next,
        (if rhs % 2 = 1 then config.word (ans * lhs) else ans) = next ∧
          next = ans * lhs ^ (rhs % 2) ∧ config.SmallIntFits next ∧ Grows next lhs := by
      refine ⟨_, rfl, ?_⟩
      rcases Nat.mod_two_eq_zero_or_one rhs with even | odd
      · rw [even, if_neg (by decide), pow_zero, Int.mul_one]
        exact ⟨rfl, ansFits, grows⟩
      · have fits : config.SmallIntFits (ans * lhs) := by
          by_contra large
          exact overflows ⟨odd, mpSmallIntMulOverflow_iff.mpr large⟩
        obtain ⟨lower, upper⟩ := fits_iff.mp fits
        rw [odd, if_pos rfl, pow_one, word_eq (by omega) (by omega)]
        exact ⟨rfl, fits, grows.mul⟩
    rw [← isProduct] at parts
    simp only [isNext]
    by_cases last : rhs = 1
    · rw [if_pos last, parts, last, (by decide : 1 / 2 = 0), pow_zero, Int.mul_one,
        if_pos nextFits]
    rw [if_neg last]
    by_cases squares : config.mpSmallIntMulOverflow lhs lhs
    · have large := mpSmallIntMulOverflow_iff.mp squares
      have nonnegative := mul_self_nonneg lhs
      have nonzero : lhs ≠ 0 := by
        rintro rfl
        exact large (fits_iff.mpr (by omega))
      have grown := @square_le_pow lhs (rhs / 2) (by omega) nonzero
      have atLeast : 2 ^ config.smallBits ≤ |(lhs * lhs) ^ (rhs / 2)| := by
        have := le_abs_of_large large
        rw [abs_of_nonneg nonnegative] at this
        rw [abs_of_nonneg (by omega)]
        omega
      rw [if_pos squares, parts, if_neg]
      rcases nextGrows with ⟨-, rfl | more⟩ | ⟨small, -⟩
      · rw [Int.one_mul, fits_iff]
        rw [abs_of_nonneg (by omega)] at atLeast
        omega
      · rw [Int.mul_comm]
        exact large_mul atLeast more
      · have bounds := abs_le.mp small
        have unit : lhs = 1 ∨ lhs = -1 := by omega
        exact absurd (fits_iff.mpr (by rcases unit with rfl | rfl <;> omega)) large
    · have fits : config.SmallIntFits (lhs * lhs) := by
        by_contra large
        exact squares (mpSmallIntMulOverflow_iff.mpr large)
      obtain ⟨lower, upper⟩ := fits_iff.mp fits
      rw [if_neg squares, word_eq (by omega) (by omega),
        ih (rhs / 2) (by omega) nextGrows.square nextFits fits, ← parts]

/-! ## The operators -/

/-- The operators that are not exact: the quotient of the lowest small int and minus one as a pair,
and zero shifted by the bits of a word. -/
def Inexact (config : NumConfig) (op : BinaryOp) (lhs rhs : Int) : Prop :=
  op = .divmod ∧ lhs = config.smallIntMin ∧ rhs = -1 ∨
    op = .lshift ∧ lhs = 0 ∧ config.wordBits ≤ rhs

theorem agrees_mpObjNewInt {result : Int} (same : result = value) :
    config.Agrees (.int value) (some (.int (config.mpObjNewInt result))) :=
  ⟨_, rfl, same ▸ denotes_mpObjNewInt _⟩

theorem lshift_agrees_iff (lhsFits : config.SmallIntFits lhs) :
    config.Agrees (binaryMeaning .lshift lhs rhs) (config.mpBinaryOp .lshift lhs rhs) ↔
      ¬ (lhs = 0 ∧ config.wordBits ≤ rhs) := by
  obtain ⟨lower, upper⟩ := fits_iff.mp lhsFits
  have positive := @one_lt config
  have wordRoom := @room config
  have shift : (0 : Int) < 2 ^ rhs.toNat := by positivity
  have lowest : config.smallIntMin = -2 ^ config.smallBits := rfl
  have highest : config.smallIntMax = 2 ^ config.smallBits - 1 := rfl
  rw [binaryMeaning, mpBinaryOp]
  split_ifs with negative overflows
  · exact iff_of_true rfl (by omega)
  · obtain ⟨isValue, lhsFormed⟩ := @mpzSetFromLl_spec config.mpz lhs
    obtain ⟨value, formed⟩ := mpzShlInpl_spec lhsFormed rhs.toNat
    rw [mpObjIntBinaryOp, if_neg negative]
    constructor
    · rintro ⟨obj, isObj, denotes⟩ ⟨zero, -⟩
      cases isObj
      exact denotes.1 (fits_iff.mpr (by rw [zero]; omega))
    · intro exact
      refine ⟨_, rfl, denotes_big ?_ (by rw [value, isValue]) formed⟩
      rw [fits_iff]
      rcases overflows with wide | beyond | under
      · have larger : (2 : Int) ^ config.wordBits ≤ 2 ^ rhs.toNat :=
          pow_le_pow_right₀ (by omega) (by omega)
        rcases lt_or_gt_of_ne (fun zero => exact ⟨zero, wide⟩ : lhs ≠ 0) with below | above
        · have := Int.mul_le_mul_of_nonneg_right (by omega : lhs ≤ -1) shift.le
          omega
        · have := Int.mul_le_mul_of_nonneg_right (by omega : 1 ≤ lhs) shift.le
          omega
      · rw [Int.ediv_lt_iff_lt_mul shift] at beyond
        omega
      · have next := (Int.le_ediv_iff_mul_le shift).mp (Int.add_one_le_of_lt under)
        rw [Int.add_mul] at next
        omega
  · obtain ⟨narrow, notOver, notUnder⟩ : ¬ (config.wordBits : Int) ≤ rhs ∧ _ ∧ _ := by
      simpa only [not_or] using overflows
    have above := (Int.le_ediv_iff_mul_le shift).mp (Int.not_lt.mp notOver)
    have below : -2 ^ config.wordBits ≤ 2 * (lhs * 2 ^ rhs.toNat) := by
      rcases Nat.lt_or_ge config.smallBits rhs.toNat with beyond | within
      · have lowestShifted : config.smallIntMin / 2 ^ rhs.toNat = -1 := by
          rw [lowest, ediv_two_pow le_rfl (by omega) beyond.le, if_pos (by omega)]
        rw [lowestShifted] at notUnder
        have atLeast := Int.mul_le_mul_of_nonneg_right (Int.not_lt.mp notUnder) shift.le
        have twice : (2 : Int) ^ (rhs.toNat + 1) ≤ 2 ^ config.wordBits :=
          pow_le_pow_right₀ (by omega) (by omega)
        rw [pow_succ] at twice
        omega
      · have small : (2 : Int) ^ rhs.toNat ≤ 2 ^ config.smallBits :=
          pow_le_pow_right₀ (by omega) within
        have atLeast := Int.mul_le_mul_of_nonneg_right (Int.not_lt.mp notUnder) shift.le
        have rounded := Int.lt_ediv_add_one_mul_self config.smallIntMin shift
        rw [Int.add_mul] at rounded
        omega
    refine iff_of_true (agrees_mpObjNewInt (word_eq_of below (by omega))) (by omega)

theorem rshift_agrees (lhsFits : config.SmallIntFits lhs) :
    config.Agrees (binaryMeaning .rshift lhs rhs) (config.mpBinaryOp .rshift lhs rhs) := by
  rw [binaryMeaning, mpBinaryOp]
  split_ifs with negative wide
  · rfl
  · refine agrees_mpObjNewInt ?_
    obtain ⟨lower, upper⟩ := fits_iff.mp lhsFits
    have bits : config.smallBits ≤ config.wordBits - 1 := by
      have := @smallBits_add_two_le config
      omega
    rw [Int.fdiv_eq_ediv_of_nonneg _ (by positivity), ediv_two_pow lower upper bits,
      ediv_two_pow lower upper (by omega)]
  · refine agrees_mpObjNewInt ?_
    rw [Int.fdiv_eq_ediv_of_nonneg _ (by positivity)]

theorem multiply_agrees (lhs rhs : Int) :
    config.Agrees (binaryMeaning .multiply lhs rhs) (config.mpBinaryOp .multiply lhs rhs) := by
  rw [binaryMeaning, mpBinaryOp]
  split_ifs with overflows
  · obtain ⟨lhsValue, lhsFormed⟩ := @mpzSetFromLl_spec config.mpz lhs
    obtain ⟨rhsValue, rhsFormed⟩ := @mpzSetFromInt_spec config.mpz mpzInitZero rhs
    obtain ⟨value, formed⟩ := mpzMulInpl_spec mpzInitZero lhsFormed rhsFormed
    refine ⟨_, rfl, denotes_big (mpSmallIntMulOverflow_iff.mp overflows) ?_ formed⟩
    rw [value, lhsValue, rhsValue]
  · have fits : config.SmallIntFits (lhs * rhs) := by
      by_contra large
      exact overflows (mpSmallIntMulOverflow_iff.mpr large)
    obtain ⟨lower, upper⟩ := fits_iff.mp fits
    rw [word_eq (by omega) (by omega)]
    exact ⟨_, rfl, denotes_small fits⟩

theorem divmod_agrees_iff (lhsFits : config.SmallIntFits lhs) (rhsFits : config.SmallIntFits rhs) :
    config.Agrees (binaryMeaning .divmod lhs rhs) (config.mpBinaryOp .divmod lhs rhs) ↔
      ¬ (lhs = config.smallIntMin ∧ rhs = -1) := by
  rw [binaryMeaning, mpBinaryOp]
  split_ifs with zero
  · exact iff_of_true rfl (by omega)
  · rw [mpSmallIntFloorDivide_eq lhsFits rhsFits zero, mpSmallIntModulo_eq rhsFits zero,
      ← fdiv_fits_iff lhsFits rhsFits zero]
    constructor
    · rintro ⟨first, second, isTuple, isFirst, -⟩
      cases isTuple
      exact isFirst.1
    · intro fits
      exact ⟨_, _, rfl, denotes_small fits, denotes_small (fmod_fits rhsFits zero)⟩

theorem power_agrees (lhsFits : config.SmallIntFits lhs) :
    config.Agrees (binaryMeaning .power lhs rhs) (config.mpBinaryOp .power lhs rhs) := by
  have positive := @one_lt config
  rw [binaryMeaning, mpBinaryOp]
  split_ifs with negative float
  · exact .inl rfl
  · exact .inr rfl
  · have grows : Grows 1 lhs := by
      rcases lt_or_ge |lhs| 2 with small | large
      · exact .inr ⟨by omega, by simp⟩
      · exact .inl ⟨large, .inl rfl⟩
    have one : config.SmallIntFits 1 := fits_iff.mpr (by omega)
    rw [powerLoop_spec rhs.toNat grows one lhsFits, Int.one_mul]
    split_ifs with fits
    · exact agrees_mpObjNewInt rfl
    · obtain ⟨lhsValue, lhsFormed⟩ := @mpzSetFromLl_spec config.mpz lhs
      obtain ⟨rhsValue, rhsFormed⟩ := @mpzSetFromInt_spec config.mpz mpzInitZero rhs
      have sign : (mpzSetFromInt config.mpz mpzInitZero rhs).neg = false := by
        rw [mpzSetFromInt]
        split_ifs
        · rfl
        · exact decide_eq_false negative
      have magnitude : Nat.ofDigits config.mpz.digBase
          (mpzSetFromInt config.mpz mpzInitZero rhs).dig = rhs.toNat := by
        rw [MpzT.value, sign, if_neg (by decide)] at rhsValue
        omega
      have nonzero : (mpzSetFromLl config.mpz lhs).value config.mpz ≠ 0 := by
        rw [lhsValue]
        rintro rfl
        refine fits (fits_iff.mpr ?_)
        rcases Nat.eq_zero_or_pos rhs.toNat with none | more
        · rw [none, pow_zero]
          omega
        · rw [zero_pow more.ne']
          omega
      obtain ⟨power, isPower, value, formed⟩ :=
        mpzPowInpl_spec mpzInitZero lhsFormed rhsFormed nonzero sign
      simp only [mpObjIntBinaryOp, sign, isPower]
      exact ⟨_, rfl, denotes_big fits (by rw [value, magnitude, lhsValue]) formed⟩

theorem unaryOp_agrees (op : UnaryOp) (fits : config.SmallIntFits value) :
    config.Agrees (unaryMeaning op value) (some (config.mpUnaryOp op value)) := by
  obtain ⟨lower, upper⟩ := fits_iff.mp fits
  have lowest : config.smallIntMin = -2 ^ config.smallBits := rfl
  have opposite : config.word (-value) = -value := word_eq (by omega) (by omega)
  have itself : config.Agrees (.int value) (some (.int (.small value))) := ⟨_, rfl, fits, rfl⟩
  have negated : value ≠ config.smallIntMin →
      config.Agrees (.int (-value)) (some (.int (.small (config.newSmallInt (-value))))) :=
    fun different => ⟨_, rfl, denotes_small (fits_iff.mpr (by omega))⟩
  cases op with
  | not => rfl
  | bool => rfl
  | hash => exact itself
  | positive => exact itself
  | int => exact itself
  | negative =>
    rw [unaryMeaning, mpUnaryOp, opposite]
    split_ifs with isLowest
    · exact agrees_mpObjNewInt rfl
    · exact negated isLowest
  | abs =>
    rw [unaryMeaning, mpUnaryOp, opposite]
    split_ifs with sign isLowest
    · rw [abs_of_nonneg sign]
      exact itself
    · rw [abs_of_neg (by omega)]
      exact agrees_mpObjNewInt rfl
    · rw [abs_of_neg (by omega)]
      exact negated isLowest
  | invert =>
    rw [unaryMeaning, mpUnaryOp, word_eq (by omega) (by omega)]
    exact ⟨_, rfl, denotes_small (fits_iff.mpr (by omega))⟩

end Results

/-- The operators on small ints are exact but for the inexact ones, with any representation of
objects and any digits of big integers. -/
theorem smallInt_operators_exact (config : NumConfig) :
    (∀ op lhs rhs, config.SmallIntFits lhs → config.SmallIntFits rhs →
      (config.Agrees (binaryMeaning op lhs rhs) (config.mpBinaryOp op lhs rhs) ↔
        ¬ config.Inexact op lhs rhs)) ∧
    ∀ op value, config.SmallIntFits value →
      config.Agrees (unaryMeaning op value) (some (config.mpUnaryOp op value)) := by
  refine ⟨fun op lhs rhs lhsFits rhsFits => ?_, fun op value fits => unaryOp_agrees op fits⟩
  obtain ⟨lhsLower, lhsUpper⟩ := fits_iff.mp lhsFits
  obtain ⟨rhsLower, rhsUpper⟩ := fits_iff.mp rhsFits
  cases op with
  | lshift => simpa [Inexact] using lshift_agrees_iff lhsFits
  | divmod => simpa [Inexact] using divmod_agrees_iff lhsFits rhsFits
  | equal => exact iff_of_true rfl (by simp [Inexact])
  | notEqual => exact iff_of_true rfl (by simp [Inexact])
  | less => exact iff_of_true rfl (by simp [Inexact])
  | more => exact iff_of_true rfl (by simp [Inexact])
  | lessEqual => exact iff_of_true rfl (by simp [Inexact])
  | moreEqual => exact iff_of_true rfl (by simp [Inexact])
  | or => exact iff_of_true (agrees_mpObjNewInt rfl) (by simp [Inexact])
  | xor => exact iff_of_true (agrees_mpObjNewInt rfl) (by simp [Inexact])
  | and => exact iff_of_true (agrees_mpObjNewInt rfl) (by simp [Inexact])
  | rshift => exact iff_of_true (rshift_agrees lhsFits) (by simp [Inexact])
  | add =>
    exact iff_of_true (agrees_mpObjNewInt (word_eq (by omega) (by omega))) (by simp [Inexact])
  | subtract =>
    exact iff_of_true (agrees_mpObjNewInt (word_eq (by omega) (by omega))) (by simp [Inexact])
  | multiply => exact iff_of_true (multiply_agrees lhs rhs) (by simp [Inexact])
  | power => exact iff_of_true (power_agrees lhsFits) (by simp [Inexact])
  | floorDivide =>
    refine iff_of_true ?_ (by simp [Inexact])
    rw [binaryMeaning, mpBinaryOp]
    split_ifs with zero
    · rfl
    · exact agrees_mpObjNewInt (mpSmallIntFloorDivide_eq lhsFits rhsFits zero)
  | modulo =>
    refine iff_of_true ?_ (by simp [Inexact])
    rw [binaryMeaning, mpBinaryOp]
    split_ifs with zero
    · rfl
    · exact agrees_mpObjNewInt (mpSmallIntModulo_eq rhsFits zero)

/-- A machine with words of 32 bits and digits of 16. -/
def word32 : NumConfig where
  repr := .a
  wordBits := 32
  float := true
  mpz := .digits16
  large := by decide
  wide := by decide

/-- A product that is no small int, and the negation of the lowest small int. -/
theorem smallInt_operators_exact_word32 :
    word32.Agrees (.int (1048576 * 1048576)) (word32.mpBinaryOp .multiply 1048576 1048576) ∧
      word32.Agrees (.int 1073741824) (some (word32.mpUnaryOp .negative (-1073741824))) :=
  ⟨((smallInt_operators_exact word32).1 .multiply 1048576 1048576 (by decide) (by decide)).mpr
      (by simp [Inexact]),
    (smallInt_operators_exact word32).2 .negative (-1073741824) (by decide)⟩

/-- The lowest small int divided by minus one wraps around in a pair, and zero shifted by the bits of
a word is no small int. -/
theorem smallInt_operators_inexact :
    ¬ word32.Agrees (binaryMeaning .divmod (-1073741824) (-1))
        (word32.mpBinaryOp .divmod (-1073741824) (-1)) ∧
      ¬ word32.Agrees (binaryMeaning .lshift 0 32) (word32.mpBinaryOp .lshift 0 32) := by
  constructor
  · rintro ⟨first, second, isTuple, isFirst, -⟩
    cases isTuple
    exact absurd isFirst.1 (by decide)
  · rintro ⟨obj, isObj, denotes⟩
    cases isObj
    exact denotes.1 (by decide)

end NumConfig

end MultiPython.Num
