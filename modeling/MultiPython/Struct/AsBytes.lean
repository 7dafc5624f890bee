import MultiPython.Logic.Buffer
import MultiPython.Mpz.Arith
import MultiPython.Struct.Binary

/-!
# Bytes of big integers

`mpz_as_bytes` of `py/mpz.c`. The bytes are written to a buffer, and a store outside of it has no
result, so that what is written can be compared with the loops of `mpz_as_bytes` without a buffer.
Digits of whole bytes are written as the integer in two's complement unless the sign has to be
extended or a carry is lost; of other digits, the whole bytes of the first one are right.
-/

namespace MultiPython.Struct

open Logic Mpz List Option

/-! ## Writing -/

/-- What `mpz_as_bytes` writes to: the buffer, the position of `b` in it, and whether it has
returned. -/
structure ByteWriter where
  buf : List Nat
  b : Nat
  returned : Bool

/-- Write one byte, and see whether that was the last one. -/
def ByteWriter.put (bigEndian : Bool) (len : Nat) (w : ByteWriter) (val : Nat) : Option ByteWriter :=
  if bigEndian then
    if w.b = 0 then none
    else (storeAt w.buf (w.b - 1) [val % 256]).map fun buf => ⟨buf, w.b - 1, decide (w.b - 1 = 0)⟩
  else (storeAt w.buf w.b [val % 256]).map fun buf => ⟨buf, w.b + 1, decide (w.b + 1 = len)⟩

/-- The inner loop of `mpz_as_bytes`, with what is left of `d` and of the carry. -/
def writeDigit (config : MpzConfig) (neg bigEndian : Bool) (len : Nat) :
    Nat → Nat → Nat → ByteWriter → Option (ByteWriter × Nat × Nat)
  | 0, d, carry, w => some (w, d, carry)
  | count + 1, d, carry, w => do
      let val := config.store d
      let val := if neg then config.store (255 - val % 256 + carry) else val
      let carry := if neg then val / 256 else carry
      let w ← w.put bigEndian len val
      if w.returned then some (w, d, carry)
      else writeDigit config neg bigEndian len count (d / 256) carry w

/-- The outer loop of `mpz_as_bytes`. -/
def writeDigits (config : MpzConfig) (neg bigEndian : Bool) (len bits d carry : Nat)
    (w : ByteWriter) : List Nat → Option ByteWriter
  | [] => some w
  | digit :: zdig => do
      let bits := bits + config.digSize
      let d := config.dbl (d <<< config.digSize ||| digit)
      let written ← writeDigit config neg bigEndian len (bits / 8) d carry w
      if written.1.returned then some written.1
      else
        writeDigits config neg bigEndian len (bits % 8) written.2.1 written.2.2 written.1 zdig

def mpzAsBytes (config : MpzConfig) (z : MpzT) (bigEndian : Bool) (len : Nat) (buf : List Nat) :
    Option (List Nat) :=
  (writeDigits config z.neg bigEndian len 0 0 1 ⟨buf, if bigEndian then len else 0, false⟩
    z.dig).map ByteWriter.buf

/-! ## What is written to the buffer -/

section Buffer

variable {config : MpzConfig} {neg bigEndian : Bool} {old written : List Nat}

/-- The writer after some bytes, the lowest one first. -/
def writerAt (bigEndian : Bool) (old written : List Nat) : ByteWriter where
  buf :=
    if bigEndian then old.take (old.length - written.length) ++ written.reverse
    else written ++ old.drop written.length
  b := if bigEndian then old.length - written.length else written.length
  returned := decide (written.length = old.length)

theorem put_writerAt (room : written.length < old.length) (val : Nat) :
    (writerAt bigEndian old written).put bigEndian old.length val =
      some (writerAt bigEndian old (written ++ [val % 256])) := by
  obtain ⟨more, isLength⟩ := Nat.exists_eq_add_of_lt room
  cases bigEndian with
  | true =>
    have position : old.length - written.length = more + 1 := by omega
    have next : old.length - (written ++ [val % 256]).length = more := by
      rw [length_append, length_singleton]
      omega
    have front : (old.take more).length = more := by
      rw [length_take]
      omega
    have split : old.take (more + 1) ++ written.reverse =
        old.take more ++ (old.drop more).take 1 ++ written.reverse := by
      rw [take_add]
    have one : ((old.drop more).take 1).length = [val % 256].length := by
      rw [length_take, length_drop, length_singleton]
      omega
    have stored := @storeAt_append _ (old.take more) ((old.drop more).take 1) written.reverse
      [val % 256] one.symm
    rw [front, ← split] at stored
    have last : decide (more = 0) =
        decide ((written ++ [val % 256]).length = old.length) := by
      rw [length_append, length_singleton]
      exact decide_eq_decide.mpr (by omega)
    simp only [ByteWriter.put, writerAt, if_true, position, next, Nat.add_sub_cancel, stored,
      Nat.succ_ne_zero, if_false, map_some, last, reverse_append,
      reverse_singleton, append_assoc]
  | false =>
    have split : written ++ old.drop written.length =
        written ++ (old.drop written.length).take 1 ++ old.drop (written.length + 1) := by
      rw [append_assoc, ← drop_drop, take_append_drop]
    have one : ((old.drop written.length).take 1).length = [val % 256].length := by
      rw [length_take, length_drop, length_singleton]
      omega
    have stored := @storeAt_append _ written ((old.drop written.length).take 1)
      (old.drop (written.length + 1)) [val % 256] one.symm
    rw [← split] at stored
    simp [ByteWriter.put, writerAt, stored]

theorem length_asBytesDigit (count d carry : Nat) :
    (asBytesDigit config neg count d carry).1.length = count := by
  induction count generalizing d carry with
  | zero => rfl
  | succ count ih => simp [asBytesDigit, ih]

theorem writeDigit_eq (room : written.length < old.length) (count d carry : Nat) :
    ∃ left, writeDigit config neg bigEndian old.length count d carry
          (writerAt bigEndian old written) =
        some (writerAt bigEndian old
          ((written ++ (asBytesDigit config neg count d carry).1).take old.length), left) ∧
      (written.length + count < old.length → left = (asBytesDigit config neg count d carry).2) := by
  induction count generalizing d carry written with
  | zero =>
    refine ⟨(d, carry), ?_, fun _ => rfl⟩
    rw [writeDigit, asBytesDigit, append_nil, take_of_length_le room.le]
  | succ count ih =>
    rw [writeDigit, asBytesDigit]
    generalize (if neg then config.store (255 - config.store d % 256 + carry) else config.store d)
      = val
    generalize (if neg then val / 256 else carry) = next
    have put := @put_writerAt bigEndian old written room val
    simp only [put, bind_eq_bind, bind_some]
    have longer : (written ++ [val % 256]).length = written.length + 1 := by simp
    by_cases full : written.length + 1 = old.length
    · have whole : ((written ++ val % 256 :: (asBytesDigit config neg count (d / 256) next).1).take
          old.length) = written ++ [val % 256] := by
        rw [← singleton_append, ← append_assoc, ← full, ← longer, take_left]
      refine ⟨(d, next), ?_, fun more => by omega⟩
      rw [whole, if_pos (by simpa [writerAt] using full)]
    · obtain ⟨left, ran, isLeft⟩ := @ih (written ++ [val % 256])
        (by omega) (d / 256) next
      refine ⟨left, ?_, fun more => isLeft (by omega)⟩
      rw [if_neg (by simpa [writerAt] using full), ran, append_assoc, singleton_append]

theorem writeDigits_eq (room : written.length < old.length) (bits d carry : Nat) (zdig : List Nat) :
    writeDigits config neg bigEndian old.length bits d carry (writerAt bigEndian old written) zdig =
      some (writerAt bigEndian old
        ((written ++ asBytesLoop config neg bits d carry zdig).take old.length)) := by
  induction zdig generalizing bits d carry written with
  | nil => rw [writeDigits, asBytesLoop, append_nil, take_of_length_le room.le]
  | cons digit zdig ih =>
    rw [writeDigits, asBytesLoop]
    obtain ⟨left, ran, isLeft⟩ := @writeDigit_eq config neg bigEndian old written room
      ((bits + config.digSize) / 8) (config.dbl (d <<< config.digSize ||| digit)) carry
    have length := @length_asBytesDigit config neg ((bits + config.digSize) / 8)
      (config.dbl (d <<< config.digSize ||| digit)) carry
    simp only [ran, bind_eq_bind, bind_some]
    generalize asBytesDigit config neg ((bits + config.digSize) / 8)
      (config.dbl (d <<< config.digSize ||| digit)) carry = bytes at *
    rw [← append_assoc]
    by_cases more : (written ++ bytes.1).length < old.length
    · have notFull : (writerAt bigEndian old (written ++ bytes.1)).returned = false :=
        decide_eq_false more.ne
      rw [take_of_length_le more.le, if_neg (by simp [notFull]),
        isLeft (by rw [← length, ← length_append]; exact more)]
      exact ih more _ _ _
    · have full : ((written ++ bytes.1).take old.length).length = old.length := by
        rw [length_take]
        omega
      have isFull : (writerAt bigEndian old
          ((written ++ bytes.1).take old.length)).returned = true := decide_eq_true full
      rw [if_pos isFull, take_append_of_le_length (Nat.not_lt.mp more)]

end Buffer

theorem mpzAsBytes_eq (config : MpzConfig) (z : MpzT) (bigEndian : Bool) {len : Nat}
    (positive : 0 < len) :
    mpzAsBytes config z bigEndian len (List.replicate len 0) =
      some (ordered bigEndian (mpObjIntToBytesImpl config z len)) := by
  have length : (replicate len 0).length = len := length_replicate
  have start : (⟨replicate len 0, if bigEndian then len else 0, false⟩ : ByteWriter) =
      writerAt bigEndian (replicate len 0) [] := by
    cases bigEndian <;> simp [writerAt, positive.ne]
  have ran := @writeDigits_eq config z.neg bigEndian (replicate len 0) [] (by simpa using positive)
    0 0 1 z.dig
  rw [length] at ran
  rw [mpzAsBytes, start, ran, nil_append, mpObjIntToBytesImpl]
  generalize (asBytesLoop config z.neg 0 0 1 z.dig).take len = written
  cases bigEndian <;> simp [writerAt, ordered]

theorem length_asBytesLoop (config : MpzConfig) (neg : Bool) {bits : Nat} (few : bits < 8)
    (d carry : Nat) (zdig : List Nat) :
    (asBytesLoop config neg bits d carry zdig).length = (bits + zdig.length * config.digSize) / 8 := by
  induction zdig generalizing bits d carry with
  | nil =>
    rw [asBytesLoop, length_nil, Nat.zero_mul]
    omega
  | cons digit zdig ih =>
    rw [asBytesLoop]
    simp only [length_append, length_asBytesDigit,
      ih (Nat.mod_lt _ (by omega : 0 < 8)), length_cons, Nat.succ_mul]
    omega

theorem writeDigits_no_room (config : MpzConfig) (neg bigEndian : Bool) (bits d carry : Nat)
    (zdig : List Nat) :
    writeDigits config neg bigEndian 0 bits d carry ⟨[], 0, false⟩ zdig =
      if asBytesLoop config neg bits d carry zdig = [] then some ⟨[], 0, false⟩ else none := by
  induction zdig generalizing bits d carry with
  | nil => simp [writeDigits, asBytesLoop]
  | cons digit zdig ih =>
    rw [writeDigits, asBytesLoop]
    cases (bits + config.digSize) / 8 with
    | zero =>
      simp only [writeDigit, asBytesDigit, bind_eq_bind, bind_some,
        Bool.false_eq_true, if_false, nil_append, ih]
      exact if_congr Iff.rfl rfl rfl
    | succ count => cases bigEndian <;> simp [writeDigit, asBytesDigit, ByteWriter.put, storeAt]

theorem mpzAsBytes_no_room (config : MpzConfig) (z : MpzT) (bigEndian : Bool) :
    mpzAsBytes config z bigEndian 0 [] =
      if z.dig.length * config.digSize < 8 then some [] else none := by
  have noBytes : asBytesLoop config z.neg 0 0 1 z.dig = [] ↔ z.dig.length * config.digSize < 8 := by
    rw [← length_eq_zero_iff, length_asBytesLoop config z.neg (by omega)]
    omega
  have start : (⟨[], if bigEndian then 0 else 0, false⟩ : ByteWriter) = ⟨[], 0, false⟩ := by
    cases bigEndian <;> rfl
  rw [mpzAsBytes, start, writeDigits_no_room, if_congr noBytes rfl rfl]
  split_ifs <;> rfl

/-! ## Digits of whole bytes -/

section Whole

variable {config : MpzConfig} {z : MpzT}

/-- Where the digits are bytes themselves, the carry of a digit that is zero is lost. -/
def KeepsCarry (config : MpzConfig) (neg : Bool) (carry : Nat) (zdig : List Nat) : Prop :=
  config.digSize = 8 → neg = true → carry = 1 → zdig.head? ≠ some 0

theorem asBytesLoop_bytes (isByte : config.digSize = 8) (neg : Bool) {carry : Nat} (bit : carry ≤ 1)
    {zdig : List Nat} (are : AreDigits config.digBase zdig)
    (keeps : KeepsCarry config neg carry zdig) :
    asBytesLoop config neg 0 0 carry zdig =
      leBytes zdig.length
        (if neg then
          config.digBase ^ zdig.length - 1 - Nat.ofDigits config.digBase zdig + carry
        else Nat.ofDigits config.digBase zdig) := by
  have base : config.digBase = 256 := by
    rw [MpzConfig.digBase, isByte]
    rfl
  have values : config.digValues = 256 := by
    rw [MpzConfig.digValues, isByte]
    rfl
  rw [base] at are ⊢
  induction zdig generalizing carry with
  | nil => simp [asBytesLoop, leBytes]
  | cons digit zdig ih =>
    obtain ⟨small, are⟩ := areDigits_cons.mp are
    have below := are.lt_pow (by omega)
    have fits : config.dbl (0 <<< config.digSize ||| digit) = digit := by
      rw [Nat.zero_shiftLeft, Nat.zero_or, MpzConfig.dbl_of_lt]
      rw [base]
      omega
    have stored : config.store digit = digit := by
      rw [MpzConfig.store, values, Nat.mod_eq_of_lt small]
    rw [asBytesLoop, isByte]
    rw [isByte] at fits
    simp only [Nat.zero_add, fits, Nat.div_self (by omega : 0 < 8), Nat.mod_self, asBytesDigit, stored,
      Nat.div_eq_of_lt small, Nat.mod_eq_of_lt small, length_cons, leBytes, Nat.ofDigits_cons,
      singleton_append]
    cases neg with
    | false =>
      have kept : KeepsCarry config false carry zdig := fun _ isNeg => by cases isNeg
      have rest := ih bit are kept
      simp only [Bool.false_eq_true, if_false] at rest ⊢
      rw [rest, Nat.add_mul_mod_self_left, Nat.mod_eq_of_lt small,
        Nat.add_mul_div_left _ _ (by omega), Nat.div_eq_of_lt small, Nat.zero_add]
    | true =>
      have room : 255 - digit + carry < 256 := by
        rcases Nat.lt_or_ge carry 1 with none | one
        · omega
        · have nonzero : digit ≠ 0 := fun isZero =>
            keeps isByte rfl (by omega) (by rw [isZero]; rfl)
          omega
      have val : config.store (255 - digit + carry) = 255 - digit + carry := by
        rw [MpzConfig.store, values, Nat.mod_eq_of_lt room]
      have kept : KeepsCarry config true 0 zdig := fun _ _ one => by cases one
      have rest := ih (Nat.zero_le 1) are kept
      simp only [if_true, val, Nat.div_eq_of_lt room, Nat.mod_eq_of_lt room, Nat.add_zero]
        at rest ⊢
      obtain ⟨gap, sum⟩ := Nat.exists_eq_add_of_lt below
      have whole : 256 ^ (zdig.length + 1) - 1 - (digit + 256 * Nat.ofDigits 256 zdig) + carry =
          (255 - digit + carry) + 256 * gap := by
        rw [Nat.pow_succ', sum]
        omega
      have remains : 256 ^ zdig.length - 1 - Nat.ofDigits 256 zdig = gap := by omega
      rw [rest, whole, remains, Nat.add_mul_mod_self_left, Nat.mod_eq_of_lt room,
        Nat.add_mul_div_left _ _ (by omega), Nat.div_eq_of_lt room, Nat.zero_add]

theorem asBytesLoop_whole (whole : 8 ∣ config.digSize) (are : AreDigits config.digBase z.dig)
    (keeps : KeepsCarry config z.neg 1 z.dig) :
    asBytesLoop config z.neg 0 0 1 z.dig = leBytes (z.dig.length * digBytes config)
      (if z.neg then config.digBase ^ z.dig.length - 1 - Nat.ofDigits config.digBase z.dig + 1
        else Nat.ofDigits config.digBase z.dig) := by
  by_cases isByte : config.digSize = 8
  · have one : digBytes config = 1 := by
      rw [digBytes, isByte]
    rw [asBytesLoop_bytes isByte z.neg le_rfl are keeps, one, Nat.mul_one]
  · have atLeast := config.atLeast
    exact asBytesLoop_eq whole (by omega) z.neg le_rfl are

theorem asBytesDigit_lt (neg : Bool) (count d carry : Nat) :
    ∀ byte ∈ (asBytesDigit config neg count d carry).1, byte < 256 := by
  induction count generalizing d carry with
  | zero => simp [asBytesDigit]
  | succ count ih =>
    rw [asBytesDigit]
    exact forall_mem_cons.mpr ⟨Nat.mod_lt _ (by omega), ih _ _⟩

theorem asBytesLoop_lt (neg : Bool) (bits d carry : Nat) (zdig : List Nat) :
    ∀ byte ∈ asBytesLoop config neg bits d carry zdig, byte < 256 := by
  induction zdig generalizing bits d carry with
  | nil => simp [asBytesLoop]
  | cons digit zdig ih =>
    rw [asBytesLoop]
    exact forall_mem_append.mpr ⟨asBytesDigit_lt _ _ _ _, ih _ _ _⟩

theorem append_zeros_ne {written : List Nat} (small : ∀ byte ∈ written, byte < 256) {len : Nat}
    (short : written.length < len) {value : Int} (negative : value < 0)
    (lower : -(256 ^ written.length : Nat) ≤ value) :
    written ++ List.replicate (len - written.length) 0 ≠ twosBytes len value := by
  intro same
  have nonnegative := twosValue_append_zeros small (Nat.sub_pos_of_lt short)
  have larger : 256 ^ written.length * 256 ≤ 256 ^ len := by
    rw [← Nat.pow_succ]
    exact Nat.pow_le_pow_right (by omega) short
  rw [same, twosValue_twosBytes (by omega) (by omega)] at nonnegative
  omega

theorem abs_value_lt (are : AreDigits config.digBase z.dig) :
    -(config.digBase ^ z.dig.length : Nat) ≤ z.value config := by
  have below := are.lt_pow config.one_lt_digBase
  rw [MpzT.value]
  split_ifs <;> omega

theorem value_neg_iff (wellFormed : WellFormed config z) :
    z.value config < 0 ↔ z.neg = true ∧ z.dig ≠ [] := by
  rw [Ne, ← MpzT.value_eq_zero_iff wellFormed, MpzT.value]
  cases z.neg <;> simp
  omega

theorem asBytesLoop_lost_carry (isByte : config.digSize = 8) (zdig : List Nat) :
    asBytesLoop config true 0 0 1 (0 :: zdig) = 0 :: asBytesLoop config true 0 0 0 zdig := by
  have values : config.digValues = 256 := by
    rw [MpzConfig.digValues, isByte]
    rfl
  have zero : config.dbl 0 = 0 := Nat.zero_mod _
  simp [asBytesLoop, asBytesDigit, isByte, zero, MpzConfig.store, values]

theorem asBytesLoop_no_carry (isByte : config.digSize = 8) {digit : Nat} {zdig : List Nat}
    (small : digit < 256) :
    ∃ rest, asBytesLoop config true 0 0 0 (digit :: zdig) = (255 - digit) :: rest := by
  have values : config.digValues = 256 := by
    rw [MpzConfig.digValues, isByte]
    rfl
  have isDigit : config.dbl digit = digit := by
    rw [MpzConfig.dbl, MpzConfig.dblBase, MpzConfig.dblDigSize, isByte]
    exact Nat.mod_eq_of_lt (small.trans (by decide))
  have fits : (255 - digit) % 256 = 255 - digit := Nat.mod_eq_of_lt (by omega)
  simp [asBytesLoop, asBytesDigit, isByte, isDigit, MpzConfig.store, values, Nat.mod_eq_of_lt small,
    fits]

/-- The second byte of a number whose lowest digit is a byte of zero is too small by one. -/
theorem lost_carry_ne (isByte : config.digSize = 8) (wellFormed : WellFormed config z)
    (neg : z.neg = true) (zero : z.dig.head? = some 0) {len : Nat} (two : 2 ≤ len) :
    mpObjIntToBytesImpl config z len ≠ twosBytes len (z.value config) := by
  have base : config.digBase = 256 := by
    rw [MpzConfig.digBase, isByte]
    rfl
  obtain ⟨digits, normal⟩ := wellFormed
  obtain ⟨isNeg, dig⟩ := z
  simp only at neg zero digits normal
  subst neg
  cases dig with
  | nil => cases zero
  | cons first others =>
    obtain rfl := some.inj zero
    cases others with
    | nil => exact absurd rfl ((@normal_concat [] _).mp normal)
    | cons digit zdig =>
      obtain ⟨more, rfl⟩ := Nat.exists_eq_add_of_le two
      rw [base, areDigits_cons, areDigits_cons] at digits
      obtain ⟨rest, written⟩ := @asBytesLoop_no_carry config isByte digit zdig digits.2.1
      intro same
      have lowest := congrArg (take 2) same
      have isValue : MpzT.value config ⟨true, 0 :: digit :: zdig⟩ =
          -((256 * (digit + 256 * Nat.ofDigits 256 zdig) : Nat) : Int) := by
        rw [MpzT.value, if_pos rfl, base, Nat.ofDigits_cons, Nat.ofDigits_cons, Nat.zero_add]
      rw [take_twosBytes, mpObjIntToBytesImpl, asBytesLoop_lost_carry isByte, written, isValue,
        twosBytes] at lowest
      simp only [Nat.add_comm 2 more, take_succ_cons, cons_append, take_zero,
        leBytes, cons.injEq, and_true] at lowest
      omega

/-- Whole digits are written as the integer in two's complement exactly if it is not negative or has
as many bytes as are written, and no carry is lost. -/
theorem mpObjIntToBytesImpl_iff (whole : 8 ∣ config.digSize) (wellFormed : WellFormed config z)
    {len : Nat} (positive : 0 < len) :
    mpObjIntToBytesImpl config z len = twosBytes len (z.value config) ↔
      (z.value config < 0 → len ≤ z.dig.length * digBytes config ∧
        ¬(config.digSize = 8 ∧ 2 ≤ len ∧ z.dig.head? = some 0)) := by
  have length : (asBytesLoop config z.neg 0 0 1 z.dig).length = z.dig.length * digBytes config := by
    rw [length_asBytesLoop config z.neg (by omega), Nat.zero_add, digBytes, Nat.mul_div_assoc _ whole]
  have size : config.digBase ^ z.dig.length = 256 ^ (z.dig.length * digBytes config) := by
    rw [digBase_eq whole, ← Nat.pow_mul, Nat.mul_comm]
  constructor
  · intro same negative
    constructor
    · by_contra short
      rw [Nat.not_le, ← length] at short
      refine append_zeros_ne (asBytesLoop_lt z.neg 0 0 1 z.dig) short negative ?_ ?_
      · rw [length, ← size]
        exact abs_value_lt wellFormed.digits
      · rw [mpObjIntToBytesImpl, take_of_length_le short.le] at same
        exact same
    · rintro ⟨isByte, two, zero⟩
      exact lost_carry_ne isByte wellFormed ((value_neg_iff wellFormed).mp negative).1 zero two same
  · intro holds
    by_cases keeps : KeepsCarry config z.neg 1 z.dig
    · exact mpObjIntToBytesImpl_of_loop whole wellFormed.digits
        (asBytesLoop_whole whole wellFormed.digits keeps) fun negative => (holds negative).1
    · simp only [KeepsCarry, true_implies, Classical.not_imp, not_not] at keeps
      obtain ⟨isByte, neg, zero⟩ := keeps
      have nonempty : z.dig ≠ [] := fun none => by
        rw [none] at zero
        cases zero
      have negative := (value_neg_iff wellFormed).mpr ⟨neg, nonempty⟩
      have one : len = 1 := by
        have few := (holds negative).2
        by_contra more
        exact few ⟨isByte, by omega, zero⟩
      obtain ⟨isNeg, dig⟩ := z
      simp only at neg zero
      obtain ⟨zdig, rfl⟩ : ∃ zdig, dig = 0 :: zdig := by
        cases dig with
        | nil => cases zero
        | cons low zdig => exact ⟨zdig, by rw [some.inj zero]⟩
      subst neg
      have base : config.digBase = 256 := by
        rw [MpzConfig.digBase, isByte]
        rfl
      have isValue : MpzT.value config ⟨true, 0 :: zdig⟩ =
          -((256 * Nat.ofDigits 256 zdig : Nat) : Int) := by
        rw [MpzT.value, if_pos rfl, base, Nat.ofDigits_cons, Nat.zero_add]
      rw [one, mpObjIntToBytesImpl, asBytesLoop_lost_carry isByte, isValue, twosBytes]
      simp only [take_succ_cons, take_zero, length_singleton, Nat.sub_self,
        replicate_zero, append_nil, leBytes, cons.injEq, and_true]
      omega

end Whole

/-! ## Digits of other sizes -/

section Parts

variable {config : MpzConfig} {z : MpzT} {len : Nat}

theorem mpObjIntToBytesImpl_nil (neg : Bool) (len : Nat) :
    mpObjIntToBytesImpl config ⟨neg, []⟩ len = twosBytes len (MpzT.value config ⟨neg, []⟩) := by
  rw [MpzT.value_nil, twosBytes_of_nonneg le_rfl, Int.toNat_zero, leBytes_zero, mpObjIntToBytesImpl,
    asBytesLoop]
  simp

/-- The first digit is written as it is, as far as it has whole bytes. -/
theorem mpObjIntToBytesImpl_first (are : AreDigits config.digBase z.dig) (large : 8 < config.digSize)
    (within : len ≤ config.digSize / 8) :
    mpObjIntToBytesImpl config z len = twosBytes len (z.value config) := by
  obtain ⟨neg, dig⟩ := z
  cases dig with
  | nil => exact mpObjIntToBytesImpl_nil neg len
  | cons digit zdig =>
    have isDigit : digit < config.digBase := (areDigits_cons.mp are).1
    have isDouble : config.dbl (0 <<< config.digSize ||| digit) = digit := by
      rw [Nat.zero_shiftLeft, Nat.zero_or, MpzConfig.dbl_of_lt]
      exact isDigit.trans_le (Nat.le_mul_of_pos_left _ config.digBase_pos)
    obtain ⟨count, isCount⟩ : ∃ count, count = config.digSize / 8 := ⟨_, rfl⟩
    rw [← isCount] at within
    have first : ∀ rest, ((asBytesDigit config neg count digit 1).1 ++ rest).take len =
        leBytes len (if neg then 256 ^ count - 1 - digit % 256 ^ count + 1 else digit) := by
      intro rest
      rw [take_append_of_le_length (by rwa [length_asBytesDigit]),
        asBytesDigit_eq large neg le_rfl]
      cases neg <;> simp [take_leBytes, Nat.min_eq_left within]
    have written : mpObjIntToBytesImpl config ⟨neg, digit :: zdig⟩ len =
        leBytes len (if neg then 256 ^ count - 1 - digit % 256 ^ count + 1 else digit) := by
      rw [mpObjIntToBytesImpl, asBytesLoop]
      simp only [Nat.zero_add, isDouble, ← isCount, first, length_leBytes, Nat.sub_self,
        replicate_zero, append_nil]
    -- The bytes that are written divide the base, so the other digits make no difference.
    have divides : (256 ^ len : Int) ∣ 256 ^ count := pow_dvd_pow _ within
    obtain ⟨factor, isFactor⟩ : (256 ^ count : Int) ∣ config.digBase := by
      have bits : 8 * count ≤ config.digSize := by omega
      have powers : (2 ^ (8 * count) : Nat) ∣ 2 ^ config.digSize := Nat.pow_dvd_pow 2 bits
      rw [Nat.pow_mul] at powers
      exact_mod_cast powers
    have split := Nat.div_add_mod digit (256 ^ count)
    have small := Nat.mod_lt digit (Nat.pow_pos (by omega) : 0 < 256 ^ count)
    rw [written, MpzT.value, Nat.ofDigits_cons]
    cases neg with
    | false =>
      simp only [Bool.false_eq_true, if_false]
      rw [← Int.toNat_natCast digit, ← twosBytes_of_nonneg (Int.natCast_nonneg _)]
      refine twosBytes_congr (Int.ModEq.of_dvd divides (Int.modEq_iff_dvd.mpr ?_))
      refine ⟨factor * Nat.ofDigits config.digBase zdig, ?_⟩
      push_cast
      rw [isFactor, Int.toNat_natCast]
      ring
    | true =>
      simp only [if_true]
      obtain ⟨complement, isComplement⟩ : ∃ complement : Nat,
          complement = 256 ^ count - 1 - digit % 256 ^ count + 1 := ⟨_, rfl⟩
      have sum : (complement : Int) = 256 ^ count - (digit - 256 ^ count * (digit / 256 ^ count : Nat)) := by
        have whole : complement + digit % 256 ^ count = 256 ^ count := by omega
        zify at whole split
        push_cast
        linarith
      rw [← isComplement, ← Int.toNat_natCast complement,
        ← twosBytes_of_nonneg (Int.natCast_nonneg _)]
      refine twosBytes_congr (Int.ModEq.of_dvd divides (Int.modEq_iff_dvd.mpr ?_))
      refine ⟨-(1 + (digit / 256 ^ count : Nat) + factor * Nat.ofDigits config.digBase zdig), ?_⟩
      rw [sum]
      push_cast
      rw [isFactor]
      ring

theorem mpObjIntToBytesImpl_single (large : 8 < config.digSize) {digit : Nat}
    (isDigit : digit < config.digBase) (fits : digit < 256 ^ (config.digSize / 8)) :
    mpObjIntToBytesImpl config ⟨false, [digit]⟩ len =
      twosBytes len (MpzT.value config ⟨false, [digit]⟩) := by
  have isDouble : config.dbl (0 <<< config.digSize ||| digit) = digit := by
    rw [Nat.zero_shiftLeft, Nat.zero_or, MpzConfig.dbl_of_lt]
    exact isDigit.trans_le (Nat.le_mul_of_pos_left _ config.digBase_pos)
  have written : asBytesLoop config false 0 0 1 [digit] = leBytes (config.digSize / 8) digit := by
    simp only [asBytesLoop, Nat.zero_add, isDouble, append_nil]
    rw [asBytesDigit_eq large false le_rfl]
    rfl
  have value : MpzT.value config ⟨false, [digit]⟩ = digit := by
    rw [MpzT.value, if_neg (by simp), Nat.ofDigits_singleton]
  rw [mpObjIntToBytesImpl, written, length_take, length_leBytes, take_leBytes_append_zeros fits,
    value, twosBytes_of_nonneg (Int.natCast_nonneg _), Int.toNat_natCast]

end Parts

end MultiPython.Struct
