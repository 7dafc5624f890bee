import MultiPython.Num.BinaryOp
import MultiPython.Num.Word
import MultiPython.Struct.AsBytes

/-!
# Bytes of integers

`int.to_bytes` and `int.from_bytes` of `py/objint.c`, with `mpz_set_from_bytes` of `py/mpz.c`. An
integer is a small int or a big one, and which one it is decides by which route its bytes are
written and read.
-/

namespace MultiPython.Struct

open Logic Mpz MultiPython.Num List Option

/-! ## The functions -/

/-- `mp_binary_set_int`: the bytes that it copies, of a word. -/
def mpBinarySetInt (valSz : Nat) (bigEndian : Bool) (val : Nat) : List Nat :=
  ordered bigEndian (leBytes valSz val)

def intToBytes (config : NumConfig) (self : IntObj) (len : Nat) (bigEndian : Bool) :
    Option (List Nat) :=
  let data := List.replicate len 0
  match self with
  | .big z => mpzAsBytes config.mpz z bigEndian len data
  | .small val =>
    let l := min len (config.wordBits / 8)
    storeAt data (if bigEndian then len - l else 0)
      (mpBinarySetInt l bigEndian (val % 2 ^ config.wordBits).toNat)

/-- The inner loop of `mpz_set_from_bytes`, on the bytes from the low end: `d`, `num_bits`, and the
bytes that are left. -/
def gatherBits (config : MpzConfig) (d numBits : Nat) : List Nat → Nat × Nat × List Nat
  | [] => (d, numBits, [])
  | byte :: buf =>
    if numBits < config.digSize then
      gatherBits config (config.store (d ||| byte <<< numBits)) (numBits + 8) buf
    else (d, numBits, byte :: buf)

/-- What is left of `d` after a digit has been taken from it. -/
def dropDigit (config : MpzConfig) (d : Nat) : Nat :=
  if config.digSize ≠ 8 ∧ config.digSize ≠ 16 ∧ config.digSize ≠ 32 then d >>> config.digSize else 0

/-- The outer loop of `mpz_set_from_bytes`. When `num_bits` falls below zero there are no bytes
left. -/
def setFromBytesLoop (config : MpzConfig) : Nat → Nat → Nat → List Nat → Option (List Nat)
  | 0, _, _, _ => none
  | _ + 1, _, _, [] => some []
  | fuel + 1, d, numBits, byte :: buf => do
      let gathered := gatherBits config d numBits (byte :: buf)
      let rest ← setFromBytesLoop config fuel (dropDigit config gathered.1)
        (gathered.2.1 - config.digSize) gathered.2.2
      some (gathered.1 % config.digBase :: rest)

def mpzSetFromBytes (config : MpzConfig) (bigEndian : Bool) (buf : List Nat) : Option MpzT := do
  let dig ← setFromBytesLoop config (8 * buf.length + 1) 0 0 (if bigEndian then buf.reverse else buf)
  some ⟨false, trimZeros dig⟩

/-- The loop of `int_from_bytes`, on the bytes from the high end. It ends without a value if the
next step could leave the small ints. -/
def fromBytesLoop (config : NumConfig) (value : Nat) : List Nat → Option Nat
  | [] => some value
  | byte :: buf =>
    if config.smallIntMax.toNat >>> 8 < value then none
    else fromBytesLoop config ((value <<< 8) % 2 ^ config.wordBits ||| byte) buf

def mpObjNewIntFromUint (config : NumConfig) (value : Nat) : IntObj :=
  if value >>> config.smallBits = 0 then .small (config.newSmallInt value)
  else config.mpObjNewIntFromLl value

def intFromBytes (config : NumConfig) (bigEndian : Bool) (buf : List Nat) : Option IntObj :=
  match fromBytesLoop config 0 (if bigEndian then buf else buf.reverse) with
  | some value => some (mpObjNewIntFromUint config value)
  | none => (mpzSetFromBytes config.mpz bigEndian buf).map IntObj.big

/-! ## Reading bytes -/

section Reading

variable {config : MpzConfig} {bytes : List Nat}

/-- The bytes of a digit are put together. -/
theorem gatherBits_eq (whole : 8 ∣ config.digSize) (small : ∀ byte ∈ bytes, byte < 256) {d count : Nat}
    (isPart : d < 256 ^ count) (within : count ≤ digBytes config) :
    gatherBits config d (8 * count) bytes =
      (d + 256 ^ count * Nat.ofDigits 256 (bytes.take (digBytes config - count)),
        8 * (count + min (digBytes config - count) bytes.length),
        bytes.drop (digBytes config - count)) := by
  have size : config.digSize = 8 * digBytes config := (Nat.mul_div_cancel' whole).symm
  induction bytes generalizing d count with
  | nil => simp [gatherBits]
  | cons byte bytes ih =>
    obtain ⟨isByte, small⟩ := forall_mem_cons.mp small
    rw [gatherBits, size]
    by_cases more : count < digBytes config
    · obtain ⟨left, isLeft⟩ := Nat.exists_eq_add_of_lt more
      have power : 2 ^ (8 * count) = 256 ^ count := by rw [Nat.pow_mul]
      have joined : d ||| byte <<< (8 * count) = d + 256 ^ count * byte := by
        rw [Nat.lor_comm, ← Nat.shiftLeft_add_eq_or_of_lt (power ▸ isPart), Nat.shiftLeft_eq, power]
        ring
      have below : d + 256 ^ count * byte < 256 ^ (count + 1) := by
        have top := Nat.mul_le_mul_left (256 ^ count) (Nat.le_of_lt_succ isByte)
        rw [Nat.pow_succ]
        omega
      have stored : config.store (d ||| byte <<< (8 * count)) = d + 256 ^ count * byte := by
        rw [joined]
        refine config.store_of_lt (below.trans_le ?_)
        rw [digBase_eq whole]
        exact Nat.pow_le_pow_right (by omega) more
      have here : digBytes config - count = digBytes config - (count + 1) + 1 := by omega
      rw [if_pos (by omega), stored, ← Nat.mul_succ, ih small below more, here,
        take_succ_cons, drop_succ_cons, Nat.ofDigits_cons, length_cons]
      refine Prod.ext ?_ (Prod.ext ?_ rfl)
      · simp only [Nat.pow_succ]
        ring
      · simp only
        omega
    · have none : digBytes config - count = 0 := by omega
      rw [if_neg (by omega), none]
      simp

/-- `mpz_set_from_bytes` reads the number that the bytes stand for. -/
theorem setFromBytesLoop_eq (whole : 8 ∣ config.digSize) {fuel : Nat}
    (small : ∀ byte ∈ bytes, byte < 256) (enough : bytes.length < fuel) :
    ∃ dig, setFromBytesLoop config fuel 0 0 bytes = some dig ∧
      Nat.ofDigits config.digBase dig = Nat.ofDigits 256 bytes := by
  have atLeast := config.atLeast
  have someBytes : 0 < digBytes config := Nat.div_pos (Nat.le_of_dvd (by omega) whole) (by omega)
  have size : config.digSize = 8 * digBytes config := (Nat.mul_div_cancel' whole).symm
  induction fuel generalizing bytes with
  | zero => omega
  | succ fuel ih =>
    cases bytes with
    | nil => exact ⟨[], rfl, rfl⟩
    | cons byte bytes =>
      have gathered := @gatherBits_eq config (byte :: bytes) whole small 0 0 (by simp) (Nat.zero_le _)
      rw [Nat.mul_zero, Nat.sub_zero, Nat.pow_zero, Nat.one_mul, Nat.zero_add, Nat.zero_add] at gathered
      have taken : Nat.ofDigits 256 ((byte :: bytes).take (digBytes config)) < config.digBase := by
        rw [digBase_eq whole]
        refine (Nat.ofDigits_lt_base_pow_length (by omega) fun other member =>
          small other (mem_of_mem_take member)).trans_le ?_
        exact Nat.pow_le_pow_right (by omega) (length_take_le _ _)
      have nothing : dropDigit config (Nat.ofDigits 256 ((byte :: bytes).take (digBytes config))) =
          0 := by
        rw [dropDigit]
        split_ifs
        · rw [Nat.shiftRight_eq_div_pow, ← MpzConfig.digBase, Nat.div_eq_of_lt taken]
        · rfl
      have noBits : 8 * min (digBytes config) (byte :: bytes).length - config.digSize = 0 := by
        omega
      obtain ⟨dig, ran, isValue⟩ := @ih ((byte :: bytes).drop (digBytes config))
        (fun other member => small other (mem_of_mem_drop member))
        (by simp only [length_drop, length_cons] at enough ⊢; omega)
      refine ⟨Nat.ofDigits 256 ((byte :: bytes).take (digBytes config)) % config.digBase :: dig,
        by simp only [setFromBytesLoop, gathered, nothing, noBits, ran, bind_eq_bind,
          bind_some], ?_⟩
      rw [Nat.ofDigits_cons, Nat.mod_eq_of_lt taken, isValue]
      conv_rhs => rw [← take_append_drop (digBytes config) (byte :: bytes), Nat.ofDigits_append]
      rcases Nat.le_total (digBytes config) (byte :: bytes).length with full | part
      · rw [length_take, Nat.min_eq_left full, digBase_eq whole]
      · rw [drop_of_length_le part, Nat.ofDigits_nil, Nat.mul_zero, Nat.mul_zero]

theorem mpzSetFromBytes_eq (whole : 8 ∣ config.digSize) (bigEndian : Bool)
    (small : ∀ byte ∈ bytes, byte < 256) :
    ∃ z, mpzSetFromBytes config bigEndian (ordered bigEndian bytes) = some z ∧
      z.value config = (Nat.ofDigits 256 bytes : Nat) := by
  have order : (if bigEndian then (ordered bigEndian bytes).reverse else ordered bigEndian bytes) =
      bytes := by
    cases bigEndian <;> simp [ordered]
  obtain ⟨dig, ran, isValue⟩ := @setFromBytesLoop_eq config bytes whole (8 * bytes.length + 1) small
    (by omega)
  refine ⟨⟨false, trimZeros dig⟩, ?_, ?_⟩
  · rw [mpzSetFromBytes, order, length_ordered, ran]
    rfl
  · rw [MpzT.value, if_neg (by simp), ofDigits_trimZeros, isValue]

end Reading

/-! ## To bytes and back -/

/-- The integer of an object. -/
def intValue (config : NumConfig) : IntObj → Int
  | .small value => value
  | .big z => z.value config.mpz

section RoundTrip

variable {config : NumConfig} {bytes : List Nat}

theorem fromBytes_step {value byte : Nat} (isByte : byte < 256)
    (within : value ≤ config.smallIntMax.toNat >>> 8) :
    (value <<< 8) % 2 ^ config.wordBits ||| byte = value * 256 + byte := by
  have room := @NumConfig.smallBits_add_two_le config
  have large := config.large
  have most : config.smallIntMax.toNat = 2 ^ config.smallBits - 1 := by
    rw [NumConfig.smallIntMax]
    have cast : ((2 ^ config.smallBits : Nat) : Int) = 2 ^ config.smallBits := by push_cast; rfl
    omega
  have word : 4 * 2 ^ config.smallBits ≤ 2 ^ config.wordBits := by
    rw [(by norm_num : 4 = 2 ^ 2), ← Nat.pow_add]
    exact Nat.pow_le_pow_right (by omega) (by omega)
  have positive := Nat.two_pow_pos config.smallBits
  rw [most, Nat.shiftRight_eq_div_pow, Nat.le_div_iff_mul_le (by omega)] at within
  rw [Nat.shiftLeft_eq, Nat.mod_eq_of_lt (by omega), Nat.mul_comm]
  exact (Nat.two_pow_add_eq_or_of_lt (i := 8) isByte value).symm

theorem fromBytesLoop_cases (small : ∀ byte ∈ bytes, byte < 256) (value : Nat) :
    fromBytesLoop config value bytes =
        some (value * 256 ^ bytes.length + Nat.ofDigits 256 bytes.reverse) ∨
      (fromBytesLoop config value bytes = none ∧
        config.smallIntMax < (value * 256 ^ bytes.length + Nat.ofDigits 256 bytes.reverse : Nat)) := by
  induction bytes generalizing value with
  | nil => exact .inl (by simp [fromBytesLoop])
  | cons byte bytes ih =>
    obtain ⟨isByte, small⟩ := forall_mem_cons.mp small
    rw [fromBytesLoop, ofDigits_reverse_cons]
    by_cases within : value ≤ config.smallIntMax.toNat >>> 8
    · rw [if_neg (Nat.not_lt.mpr within), fromBytes_step isByte within]
      exact ih small _
    · rw [if_pos (Nat.not_le.mp within)]
      refine .inr ⟨rfl, ?_⟩
      rw [Nat.shiftRight_eq_div_pow, Nat.le_div_iff_mul_le (by omega)] at within
      have positive : 0 < 256 ^ bytes.length := Nat.pow_pos (by omega)
      have more := Nat.le_mul_of_pos_right (value * 256 + byte) positive
      omega

theorem mpObjNewIntFromUint_value (value : Nat) :
    intValue config (mpObjNewIntFromUint config value) = value := by
  rw [mpObjNewIntFromUint]
  split_ifs with fits
  · have below : value < 2 ^ config.smallBits := by
      rwa [Nat.shiftRight_eq_div_pow, Nat.div_eq_zero_iff_lt (Nat.two_pow_pos _)] at fits
    refine NumConfig.newSmallInt_eq (NumConfig.fits_iff.mpr ?_)
    have cast : ((2 ^ config.smallBits : Nat) : Int) = 2 ^ config.smallBits := by push_cast; rfl
    omega
  · exact (mpzSetFromLl_spec (value : Int)).1

theorem intFromBytes_eq (bigEndian : Bool) (small : ∀ byte ∈ bytes, byte < 256)
    (reads : 8 ∣ config.mpz.digSize ∨ (Nat.ofDigits 256 bytes : Nat) ≤ config.smallIntMax) :
    ∃ obj, intFromBytes config bigEndian (ordered bigEndian bytes) = some obj ∧
      intValue config obj = (Nat.ofDigits 256 bytes : Nat) := by
  have order : (if bigEndian then ordered bigEndian bytes else (ordered bigEndian bytes).reverse) =
      bytes.reverse := by
    cases bigEndian <;> simp [ordered]
  have read := @fromBytesLoop_cases config bytes.reverse
    (fun byte member => small byte (mem_reverse.mp member)) 0
  rw [Nat.zero_mul, Nat.zero_add, reverse_reverse] at read
  rw [intFromBytes, order]
  rcases read with ran | ⟨ran, large⟩
  · rw [ran]
    exact ⟨_, rfl, mpObjNewIntFromUint_value _⟩
  · rw [ran]
    obtain ⟨z, isRead, isValue⟩ := mpzSetFromBytes_eq (reads.resolve_right (by omega)) bigEndian small
    exact ⟨.big z, by simp only [isRead, map_some], isValue⟩

/-- `int.to_bytes` of a small int. -/
theorem intToBytes_small (wordBytes : 8 ∣ config.wordBits) {value : Int} (bigEndian : Bool) {len : Nat}
    (fits : config.SmallIntFits value) (nonnegative : 0 ≤ value) (below : value < 256 ^ len) :
    intToBytes config (.small value) len bigEndian =
      some (ordered bigEndian (twosBytes len value)) := by
  obtain ⟨number, rfl⟩ := Int.eq_ofNat_of_zero_le nonnegative
  have word : 2 ^ config.wordBits = 256 ^ (config.wordBits / 8) := by
    rw [(by norm_num : 256 = 2 ^ 8), ← Nat.pow_mul, Nat.mul_div_cancel' wordBytes]
  have inWord : number < 256 ^ (config.wordBits / 8) := by
    have upper := (NumConfig.fits_iff.mp fits).2
    have room := @NumConfig.room config
    have cast : ((2 ^ config.wordBits : Nat) : Int) = 2 ^ config.wordBits := by push_cast; rfl
    rw [← word]
    omega
  have unsigned : ((number : Int) % 2 ^ config.wordBits).toNat = number := by
    have cast : ((2 ^ config.wordBits : Nat) : Int) = 2 ^ config.wordBits := by push_cast; rfl
    rw [← cast, word, ← Int.natCast_mod, Nat.mod_eq_of_lt inWord, Int.toNat_natCast]
  obtain ⟨l, isMin⟩ : ∃ l, l = min len (config.wordBits / 8) := ⟨_, rfl⟩
  have small : number < 256 ^ l := by
    have inBytes : number < 256 ^ len := by exact_mod_cast below
    rw [isMin]
    rcases Nat.le_total len (config.wordBits / 8) with short | long
    · rwa [Nat.min_eq_left short]
    · rwa [Nat.min_eq_right long]
  obtain ⟨more, rfl⟩ : ∃ more, len = l + more := Nat.exists_eq_add_of_le (by omega)
  have zeros : replicate (l + more) 0 = replicate l 0 ++ replicate more 0 :=
    replicate_add _ _ _
  rw [twosBytes_of_nonneg (Int.natCast_nonneg _), Int.toNat_natCast, ← leBytes_append_zeros small]
  simp only [intToBytes, ← isMin, unsigned, mpBinarySetInt, Nat.add_sub_cancel_left]
  have count : (leBytes l number).length = (replicate l 0).length := by simp
  cases bigEndian with
  | true =>
    have stored := @storeAt_append _ (replicate more 0) (replicate l 0) []
      (leBytes l number).reverse (by simp)
    rw [length_replicate, append_nil, append_nil, replicate_append_replicate,
      Nat.add_comm more] at stored
    simp only [ordered, if_true, reverse_append, reverse_replicate]
    exact stored
  | false =>
    have stored := @storeAt_append _ [] (replicate l 0) (replicate more 0)
      (leBytes l number) count
    rw [nil_append, nil_append, length_nil, ← zeros] at stored
    simp only [ordered, Bool.false_eq_true, if_false]
    exact stored

end RoundTrip

/-! ## When the conversions are right -/

section Conversions

variable {config : NumConfig} {z : MpzT}

/-- `mpz_as_bytes` writes the lowest bytes of the integer in two's complement, into the buffer only;
and an integer in the range of that many bytes is the same after `int.to_bytes` and
`int.from_bytes`, as a big integer and as a small int. -/
structure ConvertsBytes (config : NumConfig) (z : MpzT) (bigEndian : Bool) (len : Nat) : Prop where
  asBytes : mpzAsBytes config.mpz z bigEndian len (List.replicate len 0) =
    some (ordered bigEndian (twosBytes len (z.value config.mpz)))
  roundTrip : 0 ≤ z.value config.mpz → z.value config.mpz < 256 ^ len →
    ∀ self, self = .big z ∨
      (config.SmallIntFits (z.value config.mpz) ∧ self = .small (z.value config.mpz)) →
      ∃ bytes obj, intToBytes config self len bigEndian = some bytes ∧
        intFromBytes config bigEndian bytes = some obj ∧ intValue config obj = z.value config.mpz

theorem convertsBytes_of_asBytes (wordBytes : 8 ∣ config.wordBits) {bigEndian : Bool} {len : Nat}
    (asBytes : mpzAsBytes config.mpz z bigEndian len (List.replicate len 0) =
      some (ordered bigEndian (twosBytes len (z.value config.mpz))))
    (reads : 8 ∣ config.mpz.digSize ∨
      (0 ≤ z.value config.mpz → z.value config.mpz < 256 ^ len →
        config.SmallIntFits (z.value config.mpz))) :
    ConvertsBytes config z bigEndian len := by
  refine ⟨asBytes, fun nonnegative below self isSelf => ?_⟩
  have number : ((Nat.ofDigits 256 (twosBytes len (z.value config.mpz)) : Nat) : Int) =
      z.value config.mpz := by
    exact @intOf_twosBytes false len _ ⟨nonnegative, by exact_mod_cast below⟩
  have written : intToBytes config self len bigEndian =
      some (ordered bigEndian (twosBytes len (z.value config.mpz))) := by
    rcases isSelf with rfl | ⟨fits, rfl⟩
    · exact asBytes
    · exact intToBytes_small wordBytes bigEndian fits nonnegative below
  obtain ⟨obj, isRead, isValue⟩ := @intFromBytes_eq config (twosBytes len (z.value config.mpz)) bigEndian
    twosBytes_lt (reads.imp_right fun fits => by
      rw [number]
      exact (fits nonnegative below).2)
  exact ⟨_, obj, written, isRead, isValue.trans number⟩

/-- For digits of whole bytes: there is nothing to write, or there is room, and a negative number has
as many bytes as are written and loses no carry. -/
def WholeDigits (config : MpzConfig) (z : MpzT) (len : Nat) : Prop :=
  z.dig = [] ∨ (0 < len ∧ (z.neg = true → len ≤ z.dig.length * (config.digSize / 8) ∧
    ¬(config.digSize = 8 ∧ 2 ≤ len ∧ z.dig.head? = some 0)))

/-- For digits of other sizes: the bytes that are written are whole bytes of the first digit, and
there are no others. -/
def FirstDigit (config : MpzConfig) (z : MpzT) (len : Nat) : Prop :=
  z.dig = [] ∨ (len = 0 ∧ z.dig.length * config.digSize < 8) ∨
    (0 < len ∧ len ≤ config.digSize / 8) ∨
    (0 < len ∧ z.neg = false ∧ ∃ digit, z.dig = [digit] ∧ digit < 256 ^ (config.digSize / 8))

theorem asBytes_whole_iff (whole : 8 ∣ config.mpz.digSize) (wellFormed : WellFormed config.mpz z)
    (bigEndian : Bool) (len : Nat) :
    mpzAsBytes config.mpz z bigEndian len (List.replicate len 0) =
        some (ordered bigEndian (twosBytes len (z.value config.mpz))) ↔
      WholeDigits config.mpz z len := by
  have injective : Function.Injective (ordered bigEndian) := by
    intro one other same
    cases bigEndian with
    | true => exact reverse_injective same
    | false => exact same
  rcases Nat.eq_zero_or_pos len with rfl | positive
  · have atLeast := config.mpz.atLeast
    have byte : 8 ≤ config.mpz.digSize := Nat.le_of_dvd (by omega) whole
    have empty : ordered bigEndian (twosBytes 0 (z.value config.mpz)) = [] := by
      cases bigEndian <;> rfl
    have none : z.dig.length * config.mpz.digSize < 8 ↔ z.dig = [] := by
      rw [← length_eq_zero_iff]
      refine ⟨fun few => ?_, fun zero => by rw [zero]; omega⟩
      by_contra more
      have := Nat.mul_le_mul (Nat.pos_of_ne_zero more) byte
      omega
    rw [replicate_zero, mpzAsBytes_no_room, empty, if_congr none rfl rfl, WholeDigits]
    split_ifs with nothing <;> simp [nothing]
  · rw [mpzAsBytes_eq config.mpz z bigEndian positive, some.injEq, injective.eq_iff,
      mpObjIntToBytesImpl_iff whole wellFormed positive, value_neg_iff wellFormed, WholeDigits, digBytes]
    tauto

theorem asBytes_of_firstDigit (other : ¬ 8 ∣ config.mpz.digSize) (wellFormed : WellFormed config.mpz z)
    (bigEndian : Bool) {len : Nat} (first : FirstDigit config.mpz z len) :
    mpzAsBytes config.mpz z bigEndian len (List.replicate len 0) =
      some (ordered bigEndian (twosBytes len (z.value config.mpz))) := by
  have empty : ordered bigEndian (twosBytes 0 (z.value config.mpz)) = [] := by
    cases bigEndian <;> rfl
  have large : 1 ≤ config.mpz.digSize / 8 → 8 < config.mpz.digSize := by
    intro byte
    refine lt_of_le_of_ne (by omega) fun same => other ?_
    rw [← same]
  obtain ⟨neg, dig⟩ := z
  rcases first with nothing | ⟨rfl, few⟩ | ⟨positive, within⟩ | ⟨positive, notNeg, digit, isDigit, fits⟩
  · simp only at nothing
    subst nothing
    rcases Nat.eq_zero_or_pos len with rfl | positive
    · rw [replicate_zero, mpzAsBytes_no_room, empty, if_pos (by simp)]
    · rw [mpzAsBytes_eq config.mpz _ bigEndian positive, mpObjIntToBytesImpl_nil]
  · rw [replicate_zero, mpzAsBytes_no_room, empty, if_pos few]
  · rw [mpzAsBytes_eq config.mpz _ bigEndian positive,
      mpObjIntToBytesImpl_first wellFormed.digits (large (by omega)) within]
  · simp only at notNeg isDigit
    subst notNeg isDigit
    have below : digit < config.mpz.digBase := (areDigits_cons.mp wellFormed.digits).1
    have nonzero : digit ≠ 0 := (@normal_concat [] _).mp wellFormed.normal
    have byte : 1 ≤ config.mpz.digSize / 8 := by
      by_contra none
      have zero : config.mpz.digSize / 8 = 0 := by omega
      rw [zero] at fits
      omega
    rw [mpzAsBytes_eq config.mpz _ bigEndian positive, mpObjIntToBytesImpl_single (large byte) below fits]

/-- The bytes of an integer are right exactly as `WholeDigits` says if the digits are whole bytes;
otherwise they are right as far as they come from the first digit, and come back if the integer is a
small int. -/
theorem intBytes_iff (wordBytes : 8 ∣ config.wordBits) (wellFormed : WellFormed config.mpz z)
    (bigEndian : Bool) (len : Nat) :
    (8 ∣ config.mpz.digSize →
      (ConvertsBytes config z bigEndian len ↔ WholeDigits config.mpz z len)) ∧
    (¬ 8 ∣ config.mpz.digSize → FirstDigit config.mpz z len →
      (0 ≤ z.value config.mpz → z.value config.mpz < 256 ^ len →
        config.SmallIntFits (z.value config.mpz)) →
      ConvertsBytes config z bigEndian len) := by
  refine ⟨fun whole => ⟨fun converts => ?_, fun holds => ?_⟩, fun other first fits => ?_⟩
  · exact (asBytes_whole_iff whole wellFormed bigEndian len).mp converts.asBytes
  · exact convertsBytes_of_asBytes wordBytes
      ((asBytes_whole_iff whole wellFormed bigEndian len).mpr holds) (Or.inl whole)
  · exact convertsBytes_of_asBytes wordBytes
      (asBytes_of_firstDigit other wellFormed bigEndian first) (Or.inr fits)

end Conversions

theorem one_digit_wellFormed (neg : Bool) {digit : Nat} (nonzero : digit ≠ 0)
    (small : digit < 2 ^ 32) : WellFormed NumConfig.word64.mpz ⟨neg, [digit]⟩ :=
  ⟨areDigits_cons.mpr ⟨small, areDigits_nil⟩, (@normal_concat [] _).mpr nonzero⟩

/-- A negative number of four bytes. -/
theorem convertsBytes_minus_256 :
    mpzAsBytes NumConfig.word64.mpz ⟨true, [256]⟩ true 4 (List.replicate 4 0) =
        some [255, 255, 255, 0] ∧
      ConvertsBytes NumConfig.word64 ⟨true, [256]⟩ true 4 :=
  ⟨by decide,
    ((intBytes_iff (by decide) (one_digit_wellFormed true (by decide) (by decide)) true 4).1
      (by decide)).mpr (Or.inr (by decide))⟩

/-- The sign of a negative number ends after its digits, and without room for a byte there is a
store outside of the buffer. -/
theorem convertsBytes_minus_1 :
    mpzAsBytes NumConfig.word64.mpz ⟨true, [1]⟩ false 8 (List.replicate 8 0) =
        some [255, 255, 255, 255, 0, 0, 0, 0] ∧
      ¬ ConvertsBytes NumConfig.word64 ⟨true, [1]⟩ false 8 ∧
      mpzAsBytes NumConfig.word64.mpz ⟨false, [1]⟩ false 0 [] = none ∧
      ¬ ConvertsBytes NumConfig.word64 ⟨false, [1]⟩ false 0 := by
  refine ⟨by decide, fun converts => ?_, by decide, fun converts => ?_⟩
  · exact absurd converts.asBytes (by decide)
  · exact absurd converts.asBytes (by decide)

end MultiPython.Struct
