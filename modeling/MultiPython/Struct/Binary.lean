import MultiPython.Logic.Bytes
import MultiPython.Logic.Layout
import MultiPython.Mpz.Mpz

/-!
# Binary data

`py/binary.c` for the integer codes, and `mpz_as_bytes` of `py/mpz.c`, which writes big integers.
Memory is a byte for every address, and an access is an address with a number of bytes. An integer
argument is a small int or a big one; which one it is decides by which route its bytes are written.
-/

namespace MultiPython.Struct

open Logic Mpz List

/-- What the code depends on: `MP_ENDIANNESS_BIG`, `sizeof(mp_uint_t)`, the C types with their
alignments, the number of bits of a small int, and the digits of big integers. Every port that has
the module has digits of 16 or 32 bits. -/
structure Platform where
  bigEndian : Bool
  /-- `BYTES_PER_WORD`. -/
  word : Nat
  short : Field
  int : Field
  long : Field
  longLong : Field
  pointer : Field
  sizes : ∀ field ∈ [short, int, long, longLong, pointer], 0 < field.size ∧ field.size ≤ 8
  smallBits : Nat
  smallFits : 0 < smallBits ∧ smallBits ≤ 8 * word
  config : MpzConfig
  wholeBytes : 8 ∣ config.digSize ∧ 8 < config.digSize

variable (platform : Platform)

/-- The number of values of a word. -/
def Platform.wordBase : Nat := 2 ^ (8 * platform.word)

/-- `MP_SMALL_INT_FITS`. -/
def Platform.SmallIntFits (value : Int) : Prop :=
  -2 ^ (platform.smallBits - 1) ≤ value ∧ value < 2 ^ (platform.smallBits - 1)

instance (value : Int) : Decidable (platform.SmallIntFits value) :=
  inferInstanceAs (Decidable (_ ∧ _))

/-- `mp_binary_get_size`, with the alignment, for the integer codes. -/
def mpBinaryGetSize (structType valType : Char) : Option Field :=
  match structType with
  | '<' | '>' =>
    match valType with
    | 'b' | 'B' => some (.packed 1)
    | 'h' | 'H' => some (.packed 2)
    | 'i' | 'I' => some (.packed 4)
    | 'l' | 'L' => some (.packed 4)
    | 'q' | 'Q' => some (.packed 8)
    | 'P' => some (.packed platform.pointer.size)
    | _ => none
  | '@' =>
    match valType with
    | 'b' | 'B' => some (.packed 1)
    | 'h' | 'H' => some platform.short
    | 'i' | 'I' => some platform.int
    | 'l' | 'L' => some platform.long
    | 'q' | 'Q' => some platform.longLong
    | 'P' => some platform.pointer
    | _ => none
  | _ => none

def isSigned (typecode : Char) : Bool := decide ('Z' < typecode)

/-- Whether the bytes of a format are written with the highest one first. -/
def isBig (structType : Char) : Bool :=
  if structType = '@' then platform.bigEndian else decide (structType = '>')

/-- Bytes in the order of the format. -/
def ordered (big : Bool) (bytes : List Nat) : List Nat := if big then bytes.reverse else bytes

/-! ## Reading -/

def mpBinaryGetInt (signed big : Bool) (src : List Nat) : Int :=
  let bytes := if big then src else src.reverse
  let val : Int := if signed = true ∧ 128 ≤ bytes.headD 0 then -1 else 0
  bytes.foldl (fun (val : Int) (byte : Nat) => (val * 256 + byte).bmod (2 ^ 64)) val

/-- `mp_binary_get_val`: the integer, and where it was read from. The address after it is the end of
what was read. -/
def mpBinaryGetVal (memory : Memory) (structType valType : Char) (ptr : Nat) :
    Option (Int × Nat × Nat) := do
  let field ← mpBinaryGetSize platform structType valType
  let p := if structType = '@' then alignUp ptr field.align else ptr
  let val := mpBinaryGetInt (isSigned valType) (isBig platform structType)
    (readBytes memory p field.size)
  some (if isSigned valType then val else val % 2 ^ 64, p, field.size)

/-! ## Writing -/

/-- An argument of `pack_into`. -/
inductive Arg where
  | small (value : Int)
  | big (value : MpzT)
  | bytes (data : List Nat)

/-- The inner loop of `mpz_as_bytes`: the bytes of the double digit `d`, as many as it has, and what
is left of `d` and of the carry. -/
def asBytesDigit (config : MpzConfig) (neg : Bool) : Nat → Nat → Nat → List Nat × Nat × Nat
  | 0, d, carry => ([], d, carry)
  | count + 1, d, carry =>
    let val := config.store d
    let val := if neg then config.store (255 - val % 256 + carry) else val
    let carry := if neg then val / 256 else carry
    let rest := asBytesDigit config neg count (d / 256) carry
    (val % 256 :: rest.1, rest.2)

/-- The loops of `mpz_as_bytes`, without a bound on the number of bytes. -/
def asBytesLoop (config : MpzConfig) (neg : Bool) (bits d carry : Nat) : List Nat → List Nat
  | [] => []
  | digit :: zdig =>
    let bits := bits + config.digSize
    let d := config.dbl (d <<< config.digSize ||| digit)
    let written := asBytesDigit config neg (bits / 8) d carry
    written.1 ++ asBytesLoop config neg (bits % 8) written.2.1 written.2.2 zdig

/-- `mp_obj_int_to_bytes_impl`: `mpz_as_bytes` into bytes that are zero, the lowest one first. -/
def mpObjIntToBytesImpl (config : MpzConfig) (z : MpzT) (len : Nat) : List Nat :=
  let written := (asBytesLoop config z.neg 0 0 1 z.dig).take len
  written ++ List.replicate (len - written.length) 0

/-- The bytes that `mp_binary_set_val` writes for a small int, the lowest one first. -/
def smallIntBytes (signed : Bool) (size : Nat) (value : Int) : List Nat :=
  let val := (value % platform.wordBase).toNat
  let fill := if signed = true ∧ value.bmod platform.wordBase < 0 then 0xff else 0
  leBytes (min size platform.word) val ++ List.replicate (size - platform.word) fill

/-- `mp_binary_set_val`: the memory after it, and where was written. A bytes object is no
integer. -/
def mpBinarySetVal (memory : Memory) (structType valType : Char) (arg : Arg) (ptr : Nat) :
    Option (Memory × Nat × Nat) := do
  let field ← mpBinaryGetSize platform structType valType
  let p := if structType = '@' then alignUp ptr field.align else ptr
  let bytes ← match arg with
    | .small value => some (smallIntBytes platform (isSigned valType) field.size value)
    | .big value => some (mpObjIntToBytesImpl platform.config value field.size)
    | .bytes _ => none
  some (writeBytes memory p (ordered (isBig platform structType) bytes), p, field.size)

theorem length_ordered (big : Bool) (bytes : List Nat) :
    (ordered big bytes).length = bytes.length := by
  rw [ordered]
  split_ifs
  · exact length_reverse
  · rfl

/-! ## Integers -/

/-- The integers that a code is for. -/
def InRange (signed : Bool) (size : Nat) (value : Int) : Prop :=
  if signed then -(256 ^ size : Nat) ≤ 2 * value ∧ 2 * value < (256 ^ size : Nat)
  else 0 ≤ value ∧ value < (256 ^ size : Nat)

instance (signed : Bool) (size : Nat) (value : Int) : Decidable (InRange signed size value) :=
  match signed with
  | true => inferInstanceAs (Decidable (_ ∧ _))
  | false => inferInstanceAs (Decidable (_ ∧ _))

theorem mpBinaryGetInt_ordered (signed big : Bool) (bytes : List Nat) :
    mpBinaryGetInt signed big (ordered big bytes) = mpBinaryGetInt signed false bytes := by
  cases big <;> simp [mpBinaryGetInt, ordered]

/-- The integer that bytes stand for, with the lowest one first. -/
def intOf (signed : Bool) (bytes : List Nat) : Int :=
  if signed then twosValue bytes else ((Nat.ofDigits 256 bytes : Nat) : Int)

variable {signed : Bool}

theorem intOf_twosBytes {size : Nat} {value : Int} (inRange : InRange signed size value) :
    intOf signed (twosBytes size value) = value := by
  cases signed with
  | true =>
    rw [InRange, if_pos rfl] at inRange
    exact twosValue_twosBytes inRange.1 inRange.2
  | false =>
    rw [InRange, if_neg (by decide)] at inRange
    have cast := pow_256_cast size
    rw [intOf, if_neg (by decide), twosBytes, ofDigits_leBytes, cast,
      Int.emod_eq_of_lt inRange.1 inRange.2, Nat.mod_eq_of_lt (by omega)]
    omega

theorem twosBytes_intOf {bytes : List Nat} (small : ∀ byte ∈ bytes, byte < 256) :
    twosBytes bytes.length (intOf signed bytes) = bytes := by
  cases signed with
  | true => exact twosBytes_twosValue small
  | false =>
    have below : Nat.ofDigits 256 bytes < 256 ^ bytes.length :=
      Nat.ofDigits_lt_base_pow_length (by omega) small
    have cast := pow_256_cast bytes.length
    rw [intOf, if_neg (by decide), twosBytes, cast, Int.emod_eq_of_lt (by omega) (by omega),
      Int.toNat_natCast, leBytes_ofDigits small]

/-- What `mp_binary_get_int` makes of bytes, the lowest one first. -/
theorem mpBinaryGetInt_eq {bytes : List Nat} (signed : Bool) (nonempty : bytes ≠ [])
    (few : bytes.length ≤ 8) (small : ∀ byte ∈ bytes, byte < 256) :
    (if signed then mpBinaryGetInt signed false bytes
      else mpBinaryGetInt signed false bytes % 2 ^ 64) =
      intOf signed bytes := by
  obtain ⟨low, top, rfl⟩ := eq_nil_or_concat' bytes |>.resolve_left nonempty
  have lowSmall : ∀ byte ∈ low, byte < 256 := fun byte member =>
    small byte (mem_append_left _ member)
  have below := Nat.ofDigits_lt_base_pow_length (by omega : 1 < 256) small
  have isTop := @getLast_le_iff low top lowSmall
  have length : (low ++ [top]).length = low.length + 1 := by simp
  have limit : 256 ^ (low ++ [top]).length ≤ 2 ^ 64 := by
    calc 256 ^ (low ++ [top]).length ≤ 256 ^ 8 := Nat.pow_le_pow_right (by omega) few
      _ = 2 ^ 64 := by norm_num
  rw [intOf, twosValue, mpBinaryGetInt]
  simp only [Bool.false_eq_true, if_false, reverse_append, reverse_singleton,
    singleton_append, headD_cons]
  have fits : ∀ start : Int, start = -1 ∨ start = 0 →
      start.bmod (2 ^ 64) = start := by
    rintro start (rfl | rfl) <;> decide
  have read := fun start isStart =>
    @foldl_bytes (2 ^ 64) start (fits start isStart) (top :: low.reverse)
  simp only [reverse_cons, reverse_reverse, length_cons, length_reverse] at read
  rw [length] at below limit ⊢
  have cast := pow_256_cast (low.length + 1)
  rw [cast] at read
  generalize Nat.ofDigits 256 (low ++ [top]) = value at *
  generalize 256 ^ (low.length + 1) = size at *
  cases signed with
  | false =>
    have word : (2 ^ 64 : Int) = (2 ^ 64 : Nat) := by norm_num
    rw [if_neg (by simp), if_neg (by simp), if_neg (by simp), read 0 (.inr rfl), word,
      Int.bmod_emod]
    omega
  | true =>
    rw [if_pos rfl, if_pos rfl]
    by_cases large : 128 ≤ top
    · rw [if_pos ⟨rfl, large⟩, if_pos (isTop.mp large), read (-1) (.inl rfl)]
      rw [Int.bmod_eq_of_le (by omega) (by omega)]
      omega
    · rw [if_neg (fun both => large both.2), if_neg (fun upper => large (isTop.mpr upper)),
        read 0 (.inr rfl), Int.bmod_eq_of_le (by omega) (by omega)]
      omega

/-! ## Integers as bytes -/

section Encoding

variable {platform : Platform}

theorem smallIntBytes_eq {size : Nat} {value : Int} (fits : platform.SmallIntFits value)
    (inRange : InRange signed size value) :
    smallIntBytes platform signed size value = twosBytes size value := by
  have base : platform.wordBase = 256 ^ platform.word := by
    rw [Platform.wordBase, Nat.pow_mul]
  obtain ⟨positive, bounded⟩ := platform.smallFits
  obtain ⟨lower, upper⟩ := fits
  have half : 2 * (2 : Int) ^ (platform.smallBits - 1) ≤ (256 ^ platform.word : Nat) := by
    have exponent : platform.smallBits - 1 + 1 ≤ 8 * platform.word := by omega
    have powers : 2 ^ (platform.smallBits - 1 + 1) ≤ platform.wordBase :=
      Nat.pow_le_pow_right (by omega) exponent
    rw [base, Nat.pow_succ] at powers
    exact_mod_cast (by omega : 2 * 2 ^ (platform.smallBits - 1) ≤ 256 ^ platform.word)
  have signFits : (value.bmod platform.wordBase < 0) ↔ value < 0 := by
    rw [base, Int.bmod_eq_of_le (by omega) (by omega)]
  rw [smallIntBytes]
  simp only [signFits]
  rw [base]
  rcases Nat.le_total size platform.word with short | long
  · rw [Nat.min_eq_left short, Nat.sub_eq_zero_of_le short, replicate_zero, append_nil,
      twosBytes, ← leBytes_mod]
    have divides : ((256 ^ size : Nat) : Int) ∣ (256 ^ platform.word : Nat) :=
      Int.natCast_dvd_natCast.mpr (Nat.pow_dvd_pow 256 short)
    have cast := pow_256_cast size
    rw [cast, ← Int.emod_emod_of_dvd value divides,
      Int.toNat_emod (Int.emod_nonneg _ (by positivity)) (by positivity), Int.toNat_natCast]
  · obtain ⟨more, rfl⟩ := Nat.exists_eq_add_of_le long
    rw [Nat.min_eq_right long, Nat.add_sub_cancel_left, twosBytes_add (by omega) (by omega)]
    congr 1
    congr 1
    cases signed with
    | true => simp
    | false =>
      rw [InRange, if_neg (by decide)] at inRange
      rw [if_neg (by simp), if_neg (by omega)]

variable {config : MpzConfig}

theorem MpzConfig.store_mod (value : Nat) : config.store value % 256 = value % 256 := by
  rw [MpzConfig.store, MpzConfig.digValues]
  split_ifs
  · exact Nat.mod_mod_of_dvd _ (by decide)
  · exact Nat.mod_mod_of_dvd _ (by decide)
  · exact Nat.mod_mod _ _

theorem length_mpObjIntToBytesImpl (z : MpzT) (len : Nat) :
    (mpObjIntToBytesImpl config z len).length = len := by
  rw [mpObjIntToBytesImpl, length_append, length_replicate, length_take]
  omega

/-- The bytes of a digit, and of the digit complemented with the carry added. -/
theorem asBytesDigit_eq (large : 8 < config.digSize) (neg : Bool) {carry : Nat} (bit : carry ≤ 1)
    (count d : Nat) :
    asBytesDigit config neg count d carry =
      if neg then
        (leBytes count (256 ^ count - 1 - d % 256 ^ count + carry), d / 256 ^ count,
          (256 ^ count - 1 - d % 256 ^ count + carry) / 256 ^ count)
      else (leBytes count d, d / 256 ^ count, carry) := by
  induction count generalizing d carry with
  | zero => simp [asBytesDigit, leBytes, Nat.mod_one]
  | succ count ih =>
    rw [asBytesDigit]
    cases neg with
    | false =>
      simp only [Bool.false_eq_true, if_false]
      rw [ih bit, if_neg (by decide), MpzConfig.store_mod, leBytes,
        Nat.div_div_eq_div_mul, Nat.pow_succ']
    | true =>
      have low : config.store (255 - config.store d % 256 + carry) = 255 - d % 256 + carry := by
        rw [MpzConfig.store_mod, MpzConfig.store, Nat.mod_eq_of_lt]
        refine lt_of_lt_of_le (by omega : _ < 2 ^ 16) ?_
        rw [MpzConfig.digValues]
        split_ifs <;> omega
      simp only [if_true, low]
      have positive : 0 < 256 ^ count := Nat.pow_pos (by omega)
      have below := Nat.mod_lt (d / 256) positive
      have split : 256 ^ (count + 1) - 1 - d % 256 ^ (count + 1) + carry =
          (255 - d % 256 + carry) + 256 * (256 ^ count - 1 - d / 256 % 256 ^ count) := by
        rw [Nat.pow_succ', Nat.mod_mul]
        omega
      have next : (255 - d % 256 + carry + 256 * (256 ^ count - 1 - d / 256 % 256 ^ count)) / 256 =
          256 ^ count - 1 - d / 256 % 256 ^ count + (255 - d % 256 + carry) / 256 := by
        rw [Nat.add_mul_div_left _ _ (by omega), Nat.add_comm]
      rw [ih (by omega), if_pos rfl, split, leBytes, next, Nat.pow_succ',
        ← Nat.div_div_eq_div_mul, ← Nat.div_div_eq_div_mul, next, Nat.add_mul_mod_self_left]

/-- The number of bytes of a digit. -/
def digBytes (config : MpzConfig) : Nat := config.digSize / 8

theorem digBase_eq (whole : 8 ∣ config.digSize) : config.digBase = 256 ^ digBytes config := by
  rw [MpzConfig.digBase, digBytes, (by norm_num : 256 = 2 ^ 8), ← Nat.pow_mul,
    Nat.mul_div_cancel' whole]

/-- The bytes of all digits, and of all digits complemented with the carry added. -/
theorem asBytesLoop_eq (whole : 8 ∣ config.digSize) (large : 8 < config.digSize) (neg : Bool)
    {carry : Nat} (bit : carry ≤ 1) {zdig : List Nat} (are : AreDigits config.digBase zdig) :
    asBytesLoop config neg 0 0 carry zdig =
      leBytes (zdig.length * digBytes config)
        (if neg then
          config.digBase ^ zdig.length - 1 - Nat.ofDigits config.digBase zdig + carry
        else Nat.ofDigits config.digBase zdig) := by
  have base := digBase_eq whole
  induction zdig generalizing carry with
  | nil => simp [asBytesLoop, leBytes]
  | cons digit zdig ih =>
    obtain ⟨small, are⟩ := areDigits_cons.mp are
    have below := are.lt_pow config.one_lt_digBase
    have fits : config.dbl (0 <<< config.digSize ||| digit) = digit := by
      rw [Nat.zero_shiftLeft, Nat.zero_or, MpzConfig.dbl_of_lt]
      exact small.trans_le (Nat.le_mul_of_pos_left _ config.digBase_pos)
    have rest : config.digSize % 8 = 0 := Nat.mod_eq_zero_of_dvd whole
    have bytes : config.digSize / 8 = digBytes config := rfl
    rw [asBytesLoop]
    simp only [Nat.zero_add, fits, rest, bytes]
    rw [asBytesDigit_eq large neg bit, length_cons, Nat.succ_mul,
      Nat.add_comm (zdig.length * _), leBytes_add, ← base, Nat.ofDigits_cons]
    cases neg with
    | false =>
      simp only [Bool.false_eq_true, if_false] at ih ⊢
      rw [Nat.div_eq_of_lt small, ih bit are,
        Nat.add_mul_div_left _ _ config.digBase_pos, Nat.div_eq_of_lt small, Nat.zero_add,
        ← leBytes_mod _ (digit + _), ← base, Nat.add_mul_mod_self_left, Nat.mod_eq_of_lt small]
    | true =>
      simp only [if_true] at ih ⊢
      have split : config.digBase ^ (zdig.length + 1) - 1 -
          (digit + config.digBase * Nat.ofDigits config.digBase zdig) + carry =
          (config.digBase - 1 - digit + carry) + config.digBase *
            (config.digBase ^ zdig.length - 1 - Nat.ofDigits config.digBase zdig) := by
        obtain ⟨gap, sum⟩ := Nat.exists_eq_add_of_lt below
        rw [Nat.pow_succ', sum]
        have expand : config.digBase * (Nat.ofDigits config.digBase zdig + gap + 1) =
            config.digBase * Nat.ofDigits config.digBase zdig + config.digBase * gap +
              config.digBase := by ring
        rw [expand, (by omega : Nat.ofDigits config.digBase zdig + gap + 1 - 1 -
          Nat.ofDigits config.digBase zdig = gap)]
        omega
      have carried : (config.digBase - 1 - digit + carry) / config.digBase ≤ 1 :=
        Nat.div_le_of_le_mul (by omega)
      rw [Nat.div_eq_of_lt small, Nat.mod_eq_of_lt small, ih carried are, split,
        Nat.add_mul_div_left _ _ config.digBase_pos,
        Nat.add_comm (_ / config.digBase),
        ← leBytes_mod _ (_ + config.digBase * _), ← base, Nat.add_mul_mod_self_left, base,
        leBytes_mod]

variable {len : Nat}

/-- The bytes of the digits, complemented for a negative number, are those of the integer when it is
not negative or has as many bytes as are written. -/
theorem mpObjIntToBytesImpl_of_loop (whole : 8 ∣ config.digSize) {z : MpzT}
    (are : AreDigits config.digBase z.dig)
    (loop : asBytesLoop config z.neg 0 0 1 z.dig = leBytes (z.dig.length * digBytes config)
      (if z.neg then config.digBase ^ z.dig.length - 1 - Nat.ofDigits config.digBase z.dig + 1
        else Nat.ofDigits config.digBase z.dig))
    (enough : z.value config < 0 → len ≤ z.dig.length * digBytes config) :
    mpObjIntToBytesImpl config z len = twosBytes len (z.value config) := by
  obtain ⟨neg, dig⟩ := z
  simp only at are loop
  have below := are.lt_pow config.one_lt_digBase
  have power : config.digBase ^ dig.length = 256 ^ (dig.length * digBytes config) := by
    rw [digBase_eq whole, ← Nat.pow_mul, Nat.mul_comm]
  rw [mpObjIntToBytesImpl, loop, length_take, length_leBytes, power]
  rw [power] at below
  rw [MpzT.value] at enough ⊢
  cases neg with
  | false =>
    simp only [Bool.false_eq_true, if_false]
    rw [take_leBytes_append_zeros below, twosBytes_of_nonneg (Int.natCast_nonneg _),
      Int.toNat_natCast]
  | true =>
    simp only [if_true] at enough ⊢
    generalize Nat.ofDigits config.digBase dig = magnitude at *
    generalize dig.length * digBytes config = count at *
    have complement : 256 ^ count - 1 - magnitude + 1 = 256 ^ count - magnitude := by omega
    rw [complement]
    rcases Nat.eq_zero_or_pos magnitude with rfl | positive
    · rw [Nat.sub_zero, ← leBytes_mod, Nat.mod_self, take_leBytes_append_zeros (by positivity),
        Int.natCast_zero, Int.neg_zero, twosBytes_of_nonneg le_rfl, Int.toNat_zero]
    · obtain ⟨more, rfl⟩ := Nat.exists_eq_add_of_le (enough (by omega))
      rw [take_leBytes, Nat.min_eq_left (Nat.le_add_right _ _), Nat.sub_self, replicate_zero,
        append_nil, twosBytes_neg below.le]

section

variable (whole : 8 ∣ config.digSize) (large : 8 < config.digSize) {z : MpzT}
  (are : AreDigits config.digBase z.dig)

include whole large z are

theorem mpObjIntToBytesImpl_eq (enough : z.value config < 0 → len ≤ z.dig.length * digBytes config) :
    mpObjIntToBytesImpl config z len = twosBytes len (z.value config) :=
  mpObjIntToBytesImpl_of_loop whole are (asBytesLoop_eq whole large z.neg le_rfl are) enough

theorem mpObjIntToBytesImpl_lt (len : Nat) :
    ∀ byte ∈ mpObjIntToBytesImpl config z len, byte < 256 := by
  intro byte member
  rw [mpObjIntToBytesImpl, asBytesLoop_eq whole large z.neg le_rfl are] at member
  rcases mem_append.mp member with written | zero
  · exact leBytes_lt byte (mem_of_mem_take written)
  · rw [eq_of_mem_replicate zero]
    omega

theorem mpObjIntToBytesImpl_ne (inRange : InRange signed len (z.value config))
    (negative : z.value config < 0) (short : z.dig.length * digBytes config < len) :
    mpObjIntToBytesImpl config z len ≠ twosBytes len (z.value config) := by
  intro same
  have value := intOf_twosBytes inRange
  rw [← same, mpObjIntToBytesImpl, asBytesLoop_eq whole large z.neg le_rfl are, length_take,
    length_leBytes, Nat.min_eq_right short.le, take_of_length_le (by simpa using short.le)]
    at value
  have nonnegative : ∀ number : Nat, 0 ≤ intOf signed
      (leBytes (z.dig.length * digBytes config) number ++
        List.replicate (len - z.dig.length * digBytes config) 0) := by
    intro number
    rw [intOf]
    split_ifs
    · exact twosValue_append_zeros leBytes_lt (by omega)
    · exact Int.natCast_nonneg _
  have := nonnegative (if z.neg then config.digBase ^ z.dig.length - 1 -
    Nat.ofDigits config.digBase z.dig + 1 else Nat.ofDigits config.digBase z.dig)
  omega

end

end Encoding

end MultiPython.Struct
