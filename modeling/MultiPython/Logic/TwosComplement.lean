import MultiPython.Logic.Digits

/-!
# Two's complement

An integer as a number of low bits with a sign that stands for all the bits above them, and
operations on numbers that work bit by bit. Such an operation on the low bits and the signs is the
operation on the integers, whose bits go on without end.
-/

namespace MultiPython.Logic

open List

variable {op : Nat → Nat → Nat} {bit : Bool → Bool → Bool} {bits size x y : Nat} {sign other : Bool}

/-- An operation that works on each bit by itself. -/
structure BitByBit (op : Nat → Nat → Nat) (bit : Bool → Bool → Bool) : Prop where
  testBit (x y i : Nat) : (op x y).testBit i = bit (x.testBit i) (y.testBit i)
  zero : bit false false = false

theorem bitByBit_and : BitByBit (· &&& ·) (· && ·) := ⟨Nat.testBit_and, rfl⟩

theorem bitByBit_or : BitByBit (· ||| ·) (· || ·) := ⟨Nat.testBit_or, rfl⟩

theorem bitByBit_xor : BitByBit (· ^^^ ·) (· ^^ ·) := ⟨Nat.testBit_xor, rfl⟩

namespace BitByBit

section

variable (bitwise : BitByBit op bit)

include bitwise

theorem lt_two_pow (left : x < 2 ^ bits) (right : y < 2 ^ bits) : op x y < 2 ^ bits := by
  refine Nat.lt_pow_two_of_testBit _ fun i high => ?_
  rw [bitwise.testBit, Nat.testBit_lt_two_pow (left.trans_le (Nat.pow_le_pow_right (by omega) high)),
    Nat.testBit_lt_two_pow (right.trans_le (Nat.pow_le_pow_right (by omega) high)), bitwise.zero]

theorem mod_two_pow : op x y % 2 ^ bits = op (x % 2 ^ bits) (y % 2 ^ bits) := by
  refine Nat.eq_of_testBit_eq fun i => ?_
  simp only [Nat.testBit_mod_two_pow, bitwise.testBit]
  cases decide (i < bits) <;> simp [bitwise.zero]

/-- The operation on a digit and on the digits above it. -/
theorem add_two_pow_mul {low high lower higher : Nat} (small : low < 2 ^ bits)
    (lowerSmall : lower < 2 ^ bits) :
    op (low + 2 ^ bits * high) (lower + 2 ^ bits * higher) =
      op low lower + 2 ^ bits * op high higher := by
  refine Nat.eq_of_testBit_eq fun i => ?_
  rw [Nat.add_comm low, Nat.add_comm lower, Nat.add_comm (op low lower), bitwise.testBit,
    Nat.testBit_two_pow_mul_add _ small, Nat.testBit_two_pow_mul_add _ lowerSmall,
    Nat.testBit_two_pow_mul_add _ (bitwise.lt_two_pow small lowerSmall)]
  split_ifs
  · rw [bitwise.testBit]
  · rw [bitwise.testBit]

/-- The operation digit by digit is the operation on the numbers. -/
theorem ofDigits_zipWith {digits others : List Nat} (digitsAre : AreDigits (2 ^ size) digits)
    (othersAre : AreDigits (2 ^ size) others) (same : digits.length = others.length) :
    Nat.ofDigits (2 ^ size) (List.zipWith op digits others) =
      op (Nat.ofDigits (2 ^ size) digits) (Nat.ofDigits (2 ^ size) others) := by
  induction digits generalizing others with
  | nil =>
    obtain rfl := eq_nil_of_length_eq_zero same.symm
    have zero : op 0 0 = 0 := Nat.eq_of_testBit_eq fun i => by simp [bitwise.testBit, bitwise.zero]
    simpa using zero.symm
  | cons digit digits ih =>
    cases others with
    | nil => simp at same
    | cons other others =>
      rw [areDigits_cons] at digitsAre othersAre
      rw [zipWith_cons_cons, Nat.ofDigits_cons, Nat.ofDigits_cons, Nat.ofDigits_cons,
        ih digitsAre.2 othersAre.2 (Nat.succ_injective same),
        bitwise.add_two_pow_mul digitsAre.1 othersAre.1]

theorem areDigits_zipWith {digits others : List Nat} (digitsAre : AreDigits (2 ^ size) digits)
    (othersAre : AreDigits (2 ^ size) others) :
    AreDigits (2 ^ size) (List.zipWith op digits others) := by
  induction digits generalizing others with
  | nil => simp
  | cons digit digits ih =>
    cases others with
    | nil => simp
    | cons other others =>
      rw [areDigits_cons] at digitsAre othersAre
      rw [zipWith_cons_cons, areDigits_cons]
      exact ⟨bitwise.lt_two_pow digitsAre.1 othersAre.1,
        ih digitsAre.2 othersAre.2⟩

end

end BitByBit

/-! ## Complements -/

/-- All bits of a number inverted. -/
def complement (bits low : Nat) : Nat := 2 ^ bits - (low + 1)

theorem testBit_complement (small : x < 2 ^ bits) (i : Nat) :
    (complement bits x).testBit i = (decide (i < bits) && !x.testBit i) :=
  Nat.testBit_two_pow_sub_succ small i

theorem complement_lt : complement bits x < 2 ^ bits := by
  have := Nat.two_pow_pos bits
  unfold complement
  omega

/-- Bits above a small number are not set. -/
theorem testBit_high (small : x < 2 ^ bits) {i : Nat} (high : ¬i < bits) : x.testBit i = false :=
  Nat.testBit_lt_two_pow (small.trans_le (Nat.pow_le_pow_right (by omega) (by omega)))

theorem xor_ones (small : x < 2 ^ bits) : x ^^^ (2 ^ bits - 1) = complement bits x := by
  refine Nat.eq_of_testBit_eq fun i => ?_
  rw [Nat.testBit_xor, Nat.testBit_two_pow_sub_one, testBit_complement small]
  by_cases low : i < bits
  · simp [low]
  · simp [low, testBit_high small low]

theorem complement_xor (left : x < 2 ^ bits) (right : y < 2 ^ bits) :
    complement bits x ^^^ y = complement bits (x ^^^ y) := by
  refine Nat.eq_of_testBit_eq fun i => ?_
  rw [Nat.testBit_xor, testBit_complement left, testBit_complement (Nat.xor_lt_two_pow left right),
    Nat.testBit_xor]
  by_cases low : i < bits
  · simp [low]
  · simp [low, testBit_high right low]

theorem complement_xor_complement (left : x < 2 ^ bits) (right : y < 2 ^ bits) :
    complement bits x ^^^ complement bits y = x ^^^ y := by
  rw [complement_xor left complement_lt, Nat.xor_comm x, complement_xor right left]
  have small := Nat.xor_lt_two_pow right left
  rw [Nat.xor_comm x y]
  unfold complement
  omega

/-- Inverting the digits inverts the number. -/
theorem ofDigits_map_complement {digits : List Nat} (positive : 0 < size)
    (digitsAre : AreDigits (2 ^ size) digits) :
    Nat.ofDigits (2 ^ size) (digits.map (complement size)) =
      complement (size * digits.length) (Nat.ofDigits (2 ^ size) digits) := by
  induction digits with
  | nil => simp [complement]
  | cons digit digits ih =>
    rw [areDigits_cons] at digitsAre
    have below := digitsAre.2.lt_pow (Nat.one_lt_two_pow positive.ne')
    rw [← Nat.pow_mul] at below
    have power : 2 ^ (size * (digits.length + 1)) = 2 ^ size * 2 ^ (size * digits.length) := by
      rw [Nat.mul_succ, Nat.pow_add, Nat.mul_comm]
    rw [map_cons, Nat.ofDigits_cons, ih digitsAre.2, Nat.ofDigits_cons,
      length_cons]
    unfold complement
    have upper : 2 ^ size * (2 ^ (size * digits.length) -
        (Nat.ofDigits (2 ^ size) digits + 1)) + 2 ^ size *
          (Nat.ofDigits (2 ^ size) digits + 1) = 2 ^ (size * (digits.length + 1)) := by
      rw [power, ← Nat.mul_add, Nat.sub_add_cancel below]
    rw [Nat.mul_succ] at upper
    omega

/-! ## Signs -/

/-- The integer with these low bits, and with the sign in all the bits above. -/
def fromTwos (bits : Nat) (sign : Bool) (low : Nat) : Int := low - if sign then 2 ^ bits else 0

theorem testBit_fromTwos (small : x < 2 ^ bits) (i : Nat) :
    (fromTwos bits sign x).testBit i = if i < bits then x.testBit i else sign := by
  unfold fromTwos
  cases sign with
  | false =>
    rw [if_neg (by decide), Int.sub_zero]
    have isNat : ((x : Int)).testBit i = x.testBit i := rfl
    rw [isNat]
    split_ifs with low
    · rfl
    · exact testBit_high small low
  | true =>
    have isNegative : ((x : Int) - if true = true then 2 ^ bits else 0) =
        Int.negSucc (complement bits x) := by
      rw [if_pos rfl, Int.negSucc_eq, complement]
      have cast : ((2 ^ bits : Nat) : Int) = 2 ^ bits := by push_cast; rfl
      omega
    have inverted : (Int.negSucc (complement bits x)).testBit i =
        !(complement bits x).testBit i := rfl
    rw [isNegative, inverted, testBit_complement small]
    split_ifs with low
    · simp [low]
    · simp [low]

/-- The low bits of an integer from its magnitude, and the magnitude from the low bits. -/
def twos (bits : Nat) (sign : Bool) (magnitude : Nat) : Nat :=
  if sign then 2 ^ bits - magnitude else magnitude

theorem twos_lt (small : x < 2 ^ bits) (nonzero : sign = true → x ≠ 0) :
    twos bits sign x < 2 ^ bits := by
  unfold twos
  split_ifs with negative
  · have := nonzero negative
    omega
  · exact small

theorem twos_twos (small : x ≤ 2 ^ bits) : twos bits sign (twos bits sign x) = x := by
  unfold twos
  split_ifs <;> omega

/-- A complement and one are the low bits of a negative number. -/
theorem toNat_add_complement (small : x < 2 ^ bits) :
    sign.toNat + (if sign then complement bits x else x) = twos bits sign x := by
  unfold twos complement
  cases sign with
  | false => simp
  | true =>
    simp only [Bool.toNat_true, if_true]
    omega

/-- The complement of the low bits of a negative number is one less than its magnitude. -/
theorem complement_twos (small : x < 2 ^ bits) :
    complement bits (twos bits true x) = x - 1 := by
  unfold twos complement
  rw [if_pos rfl]
  omega

/-- The sign and the magnitude of an integer given by its low bits. -/
theorem fromTwos_eq (small : x ≤ 2 ^ bits) :
    fromTwos bits sign x = if sign then -(twos bits sign x : Int) else twos bits sign x := by
  have cast : ((2 ^ bits : Nat) : Int) = 2 ^ bits := by push_cast; rfl
  unfold fromTwos twos
  split_ifs <;> omega

/-- An operation on the low bits and the signs is the operation on the integers. -/
theorem BitByBit.testBit_fromTwos (bitwise : BitByBit op bit) (left : x < 2 ^ bits)
    (right : y < 2 ^ bits) (i : Nat) :
    (fromTwos bits (bit sign other) (op x y)).testBit i =
      bit ((fromTwos bits sign x).testBit i) ((fromTwos bits other y).testBit i) := by
  rw [Logic.testBit_fromTwos (bitwise.lt_two_pow left right), Logic.testBit_fromTwos left,
    Logic.testBit_fromTwos right]
  split_ifs
  · exact bitwise.testBit x y i
  · rfl

end MultiPython.Logic
