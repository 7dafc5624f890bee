import MultiPython.Mpz.InPlace

/-!
# Big integers from floats

`mpz_set_from_float` of `py/mpz.c`, on the fields of a float. The fraction is shifted to where its
digits begin, and its digits are stored behind zeros. The shift is computed in an `unsigned int`,
whose number of values is a multiple of the digit size only if that is a power of two.
-/

namespace MultiPython.Mpz.InPlace

open Logic List

/-- `MICROPY_FLOAT_IMPL`. -/
inductive FloatImpl where
  | float
  | double
deriving DecidableEq

namespace FloatImpl

/-- `MP_FLOAT_EXP_BITS`. -/
def expBits : FloatImpl → Nat
  | float => 8
  | double => 11

/-- `MP_FLOAT_FRAC_BITS`. -/
def fracBits : FloatImpl → Nat
  | float => 23
  | double => 52

/-- The number of bits of `mp_float_int_t`. -/
def intBits : FloatImpl → Nat
  | float => 32
  | double => 64

/-- `MP_FLOAT_EXP_BIAS`. -/
def expBias (impl : FloatImpl) : Nat := 2 ^ (impl.expBits - 1) - 1

end FloatImpl

/-- The fields of an `mp_float_t`. -/
structure FloatFields (impl : FloatImpl) where
  sgn : Bool
  exp : Nat
  frc : Nat
  exp_lt : exp < 2 ^ impl.expBits
  frc_lt : frc < 2 ^ impl.fracBits

section Code

variable (config : MpzConfig) {impl : FloatImpl}

/-- `mpz_set_from_int`, on a machine with words of `wordBits` bits. -/
def mpzSetFromInt (wordBits : Nat) (fill : Nat → Nat) (z : MpzBuf) (val : Int) : Option MpzBuf :=
  if val = 0 then some { z with len := 0 }
  else do
    let z ← mpzNeedDig fill z ((wordBits + config.digSize - 1) / config.digSize)
    let digits := setLoop config val.natAbs
    let block ← storeAt z.dig 0 digits
    some { z with neg := decide (val < 0), len := digits.length, dig := block }

/-- `(rem - MP_FLOAT_FRAC_BITS) % DIG_SIZE`, in an `unsigned int` of 32 bits. -/
def floatShft (impl : FloatImpl) (rem : Nat) : Nat :=
  (2 ^ 32 + rem - impl.fracBits) % 2 ^ 32 % config.digSize

/-- The digits of a fraction. -/
def frcDigits : Nat → Nat → List Nat
  | 0, _ => []
  | count + 1, frc => frc % config.digBase :: frcDigits count (frc >>> config.digSize)

/-- The digits behind the first one. The loop, for digits that are narrower than the fraction,
would not end if it began behind the last digit. -/
def storeFrc (impl : FloatImpl) (digCnt digInd frc : Nat) (dig : List Nat) : Option (List Nat) :=
  if config.digSize < impl.fracBits + 1 then
    if digInd ≤ digCnt then storeAt dig digInd (frcDigits config (digCnt - digInd) frc) else none
  else if digInd ≠ digCnt then storeAt dig digInd [config.store frc]
  else some dig

/-- The digits of a fraction that is to be shifted. -/
def storeShifted (impl : FloatImpl) (digCnt digInd shft frc : Nat) (dig : List Nat) :
    Option (List Nat) :=
  if shft ≠ 0 then do
    let dig ← storeAt dig digInd [(frc <<< shft) % 2 ^ impl.intBits % config.digBase]
    storeFrc config impl digCnt (digInd + 1) (frc >>> (config.digSize - shft)) dig
  else storeFrc config impl digCnt digInd frc dig

/-- The shift, the first digit and the fraction, for a float of at least two. -/
structure FloatParts where
  shft : Nat
  digInd : Nat
  frc : Nat

def floatParts (impl : FloatImpl) (adjExp frc : Nat) : FloatParts :=
  if adjExp < impl.fracBits then ⟨0, 0, frc >>> (impl.fracBits - adjExp)⟩
  else ⟨floatShft config impl (adjExp % config.digSize),
    (adjExp - impl.fracBits) / config.digSize, frc⟩

/-- The branch for floats of at least two. -/
def mpzSetFromLarge (fill : Nat → Nat) (z : MpzBuf) (impl : FloatImpl) (adjExp frc : Nat) :
    Option MpzBuf := do
  let digCnt := (adjExp + 1 + (config.digSize - 1)) / config.digSize
  let parts := floatParts config impl adjExp (frc ||| 1 <<< impl.fracBits)
  let z ← mpzNeedDig fill z digCnt
  let dig ← storeAt z.dig 0 (List.replicate parts.digInd 0)
  let dig ← storeShifted config impl digCnt parts.digInd parts.shft parts.frc dig
  some { z with len := digCnt, dig := dig }

/-- The exponent without its bias. -/
def FloatFields.adjExp (u : FloatFields impl) : Int := (u.exp : Int) - impl.expBias

def mpzSetFromFloat (wordBits : Nat) (fill : Nat → Nat) (z : MpzBuf) (u : FloatFields impl) :
    Option MpzBuf :=
  let z := { z with neg := u.sgn }
  if u.exp = 0 then mpzSetFromInt config wordBits fill z 0
  else if u.exp = 2 ^ impl.expBits - 1 then mpzSetFromInt config wordBits fill z 0
  else if u.adjExp < 0 then mpzSetFromInt config wordBits fill z 0
  else if u.adjExp = 0 then mpzSetFromInt config wordBits fill z 1
  else mpzSetFromLarge config fill z impl u.adjExp.toNat u.frc

end Code

/-! ## The value of a float -/

section Value

variable {impl : FloatImpl}

namespace FloatFields

/-- The float is neither infinite nor a NaN. -/
def Finite (u : FloatFields impl) : Prop := u.exp ≠ 2 ^ impl.expBits - 1

/-- The float without its sign, as IEEE 754 says. -/
def magnitude (u : FloatFields impl) : ℚ :=
  if u.exp = 0 then u.frc * 2 ^ (1 - impl.expBias - impl.fracBits : ℤ)
  else (2 ^ impl.fracBits + u.frc) * 2 ^ (u.adjExp - impl.fracBits)

/-- The number that a float is. -/
def value (u : FloatFields impl) : ℚ := if u.sgn then -u.magnitude else u.magnitude

end FloatFields

/-- Truncate towards zero. -/
def truncate (q : ℚ) : ℤ := if q < 0 then ⌈q⌉ else ⌊q⌋

theorem truncate_sign {q : ℚ} (nonneg : 0 ≤ q) (neg : Bool) :
    truncate (if neg then -q else q) = signOf neg * ⌊q⌋ := by
  cases neg with
  | false =>
    rw [truncate]
    simp only [Bool.false_eq_true, if_false, if_neg (not_lt.mpr nonneg)]
    rw [signOf, if_neg (by decide), one_mul]
  | true =>
    rw [truncate, signOf, if_pos rfl, if_pos rfl, neg_one_mul]
    by_cases zero : q = 0
    · simp [zero]
    · have positive : 0 < q := lt_of_le_of_ne nonneg (Ne.symm zero)
      rw [if_pos (neg_lt_zero.mpr positive), Int.ceil_neg]

namespace FloatFields

variable (u : FloatFields impl)

theorem magnitude_nonneg : 0 ≤ u.magnitude := by
  rw [magnitude]
  split_ifs
  · positivity
  · positivity

theorem truncate_value : truncate u.value = signOf u.sgn * ⌊u.magnitude⌋ :=
  truncate_sign u.magnitude_nonneg u.sgn

theorem floor_small (small : u.exp = 0 ∨ u.adjExp < 0) : ⌊u.magnitude⌋ = 0 := by
  rw [Int.floor_eq_zero_iff]
  refine ⟨u.magnitude_nonneg, ?_⟩
  have below : (u.frc : ℚ) < 2 ^ impl.fracBits := by exact_mod_cast u.frc_lt
  rw [magnitude]
  split_ifs with zero
  · have bias : (1 : ℤ) - impl.expBias ≤ 0 := by cases impl <;> decide
    calc (u.frc : ℚ) * 2 ^ (1 - impl.expBias - impl.fracBits : ℤ)
        < 2 ^ impl.fracBits * 2 ^ (1 - impl.expBias - impl.fracBits : ℤ) := by
          apply mul_lt_mul_of_pos_right below
          positivity
      _ = 2 ^ (1 - impl.expBias : ℤ) := by
          rw [← zpow_natCast, ← zpow_add₀ two_ne_zero]
          congr 1
          omega
      _ ≤ 1 := zpow_le_one_of_nonpos₀ (by norm_num) bias
  · have negative := small.resolve_left zero
    calc (2 ^ impl.fracBits + u.frc : ℚ) * 2 ^ (u.adjExp - impl.fracBits)
        < (2 * 2 ^ impl.fracBits) * 2 ^ (u.adjExp - impl.fracBits) := by
          apply mul_lt_mul_of_pos_right
          · linarith
          · positivity
      _ = 2 ^ (u.adjExp + 1) := by
          rw [← pow_succ', ← zpow_natCast, ← zpow_add₀ two_ne_zero]
          congr 1
          push_cast
          omega
      _ ≤ 1 := zpow_le_one_of_nonpos₀ (by norm_num) (by omega)

/-- The fraction with the bit that is not stored. -/
def significand : Nat := 2 ^ impl.fracBits + u.frc

theorem floor_fraction {adjExp : Nat} (normal : u.exp ≠ 0) (isExp : u.adjExp = adjExp)
    (below : adjExp < impl.fracBits) :
    ⌊u.magnitude⌋ = (u.significand >>> (impl.fracBits - adjExp) : Nat) := by
  have shifted : u.magnitude = (u.significand : ℚ) / (2 ^ (impl.fracBits - adjExp) : Nat) := by
    rw [magnitude, if_neg normal, isExp, div_eq_mul_inv, significand]
    push_cast
    rw [← zpow_natCast (2 : ℚ) (impl.fracBits - adjExp), ← zpow_neg]
    congr 2
    omega
  rw [shifted, Rat.floor_natCast_div_natCast, Nat.shiftRight_eq_div_pow]
  rfl

theorem floor_integer {adjExp : Nat} (normal : u.exp ≠ 0) (isExp : u.adjExp = adjExp)
    (atLeast : impl.fracBits ≤ adjExp) :
    ⌊u.magnitude⌋ = (u.significand * 2 ^ (adjExp - impl.fracBits) : Nat) := by
  have whole : u.magnitude = (u.significand * 2 ^ (adjExp - impl.fracBits) : Nat) := by
    rw [magnitude, if_neg normal, isExp, significand]
    push_cast
    rw [← zpow_natCast (2 : ℚ) (adjExp - impl.fracBits)]
    congr 2
    omega
  rw [whole, Int.floor_natCast]

end FloatFields

end Value

/-! ## The digits of a fraction -/

section Digits

variable {config : MpzConfig} {impl : FloatImpl}

theorem length_frcDigits (count frc : Nat) : (frcDigits config count frc).length = count := by
  induction count generalizing frc with
  | zero => rfl
  | succ count ih => rw [frcDigits, length_cons, ih]

theorem areDigits_frcDigits (count frc : Nat) :
    AreDigits config.digBase (frcDigits config count frc) := by
  induction count generalizing frc with
  | zero => exact areDigits_nil
  | succ count ih =>
    rw [frcDigits, areDigits_cons]
    exact ⟨Nat.mod_lt _ config.digBase_pos, ih _⟩

theorem shiftRight_digSize (frc : Nat) : frc >>> config.digSize = frc / config.digBase :=
  Nat.shiftRight_eq_div_pow _ _

theorem ofDigits_frcDigits (count frc : Nat) :
    Nat.ofDigits config.digBase (frcDigits config count frc) = frc % config.digBase ^ count := by
  induction count generalizing frc with
  | zero => rw [frcDigits, Nat.ofDigits_nil, Nat.pow_zero, Nat.mod_one]
  | succ count ih =>
    rw [frcDigits, Nat.ofDigits_cons, ih, shiftRight_digSize, Nat.pow_succ',
      Nat.mod_mul]

theorem frcDigits_small {count frc : Nat} (small : frc < config.digBase) :
    frcDigits config (count + 1) frc = frc :: List.replicate count 0 := by
  rw [frcDigits, Nat.mod_eq_of_lt small, shiftRight_digSize, Nat.div_eq_of_lt small]
  congr 1
  induction count with
  | zero => rfl
  | succ count ih =>
    rw [frcDigits, Nat.zero_mod, Nat.zero_shiftRight, ih, replicate_succ]

theorem frcDigits_shift {shft count frc : Nat} (inside : shft < config.digSize) :
    (frc <<< shft) % 2 ^ impl.intBits % config.digBase ::
        frcDigits config count (frc >>> (config.digSize - shft)) =
      frcDigits config (count + 1) (frc * 2 ^ shft) := by
  have atMost := config.atMost
  have narrow : config.digSize ≤ impl.intBits := by
    cases impl with
    | float => exact atMost
    | double => exact atMost.trans (by decide)
  rw [frcDigits, Nat.shiftLeft_eq, MpzConfig.digBase,
    Nat.mod_mod_of_dvd _ (Nat.pow_dvd_pow 2 narrow)]
  congr 2
  rw [Nat.shiftRight_eq_div_pow, Nat.shiftRight_eq_div_pow]
  have split : 2 ^ config.digSize = 2 ^ (config.digSize - shft) * 2 ^ shft := by
    rw [← Nat.pow_add]
    congr 1
    omega
  rw [split, Nat.mul_div_mul_right _ _ (Nat.two_pow_pos shft)]

/-- A shift of a number that fits is told from every other shift by the bits that are kept. -/
theorem shift_mod_eq_iff {frc bits shft other : Nat} (positive : 0 < frc)
    (fits : frc * 2 ^ shft < 2 ^ bits) :
    frc * 2 ^ other % 2 ^ bits = frc * 2 ^ shft ↔ other = shft := by
  constructor
  · intro same
    have whole : 0 < frc * 2 ^ shft := Nat.mul_pos positive (Nat.two_pow_pos shft)
    rcases Nat.lt_trichotomy other shft with less | rfl | more
    · have least : frc * 2 ^ other % 2 ^ bits ≤ frc * 2 ^ other := Nat.mod_le _ _
      have smaller : frc * 2 ^ other < frc * 2 ^ shft :=
        Nat.mul_lt_mul_of_pos_left (Nat.pow_lt_pow_right (by omega) less) positive
      omega
    · rfl
    · -- The difference of the two is a multiple of the modulus, and so the number itself is.
      obtain ⟨gap, isOther⟩ := Nat.exists_eq_add_of_lt more
      have congruent : frc * 2 ^ shft ≡ frc * 2 ^ other [MOD 2 ^ bits] := by
        rw [Nat.ModEq, same, Nat.mod_eq_of_lt fits]
      have difference : frc * 2 ^ other - frc * 2 ^ shft =
          frc * 2 ^ shft * (2 ^ (gap + 1) - 1) := by
        rw [isOther, Nat.mul_sub_one, Nat.add_assoc, Nat.pow_add, Nat.mul_assoc]
      have divides : 2 ^ bits ∣ frc * 2 ^ shft * (2 ^ (gap + 1) - 1) := by
        rw [← difference]
        refine (Nat.modEq_iff_dvd' ?_).mp congruent
        exact Nat.mul_le_mul_left frc (Nat.pow_le_pow_right (by omega) more.le)
      have odd : Nat.Coprime (2 ^ bits) (2 ^ (gap + 1) - 1) := by
        apply Nat.Coprime.pow_left
        rw [Nat.coprime_two_left]
        exact Nat.Even.sub_odd Nat.one_le_two_pow (by simp [parity_simps]) odd_one
      have multiple := odd.dvd_of_dvd_mul_right divides
      exact absurd (Nat.le_of_dvd whole multiple) (by omega)
  · rintro rfl
    exact Nat.mod_eq_of_lt fits

/-- The shift is right unless the difference wraps around in an `unsigned int` whose number of
values is not a multiple of the digit size. -/
theorem floatShft_eq_iff {adjExp : Nat} (atLeast : impl.fracBits ≤ adjExp) :
    floatShft config impl (adjExp % config.digSize) = (adjExp - impl.fracBits) % config.digSize ↔
      impl.fracBits ≤ adjExp % config.digSize ∨ config.digSize ∣ 2 ^ 32 := by
  have split := Nat.div_add_mod adjExp config.digSize
  have width : impl.fracBits ≤ 52 := by cases impl <;> decide
  have positive : 0 < config.digSize := Nat.lt_of_lt_of_le (by decide) config.atLeast
  have below : adjExp % config.digSize < 32 :=
    (Nat.mod_lt _ positive).trans_le config.atMost
  rw [floatShft]
  by_cases inside : impl.fracBits ≤ adjExp % config.digSize
  · have shifted : adjExp - impl.fracBits =
        adjExp % config.digSize - impl.fracBits + config.digSize * (adjExp / config.digSize) := by
      omega
    have unsigned : (2 ^ 32 + adjExp % config.digSize - impl.fracBits) % 2 ^ 32 =
        adjExp % config.digSize - impl.fracBits := by omega
    rw [unsigned, shifted, Nat.add_mul_mod_self_left]
    simp [inside]
  · have unsigned : (2 ^ 32 + adjExp % config.digSize - impl.fracBits) % 2 ^ 32 =
        2 ^ 32 + adjExp % config.digSize - impl.fracBits := by omega
    rw [unsigned]
    simp only [inside, false_or]
    -- Add what was taken away, and the remainder is the one of the number of values.
    have left : 2 ^ 32 + adjExp % config.digSize - impl.fracBits +
        (impl.fracBits - adjExp % config.digSize) = 2 ^ 32 := by omega
    have right : adjExp - impl.fracBits + (impl.fracBits - adjExp % config.digSize) =
        config.digSize * (adjExp / config.digSize) := by omega
    have multiple : config.digSize * (adjExp / config.digSize) ≡ 0 [MOD config.digSize] :=
      Nat.modEq_zero_iff_dvd.mpr (Nat.dvd_mul_right _ _)
    constructor
    · intro same
      have added := Nat.ModEq.add_right (impl.fracBits - adjExp % config.digSize)
        (show _ ≡ _ [MOD config.digSize] from same)
      rw [left, right] at added
      exact Nat.modEq_zero_iff_dvd.mp (added.trans multiple)
    · intro divides
      apply Nat.ModEq.add_right_cancel' (impl.fracBits - adjExp % config.digSize)
      rw [left, right]
      exact (Nat.modEq_zero_iff_dvd.mpr divides).trans multiple.symm

end Digits

/-! ## The digits in the block -/

section Blocks

variable {config : MpzConfig} {impl : FloatImpl} {fill : Nat → Nat} {z : MpzBuf}
  {contents dig : List Nat} {digCnt shft frc adjExp : Nat}

theorem storeFrc_spec (holds : contents <+: dig) (room : digCnt ≤ dig.length)
    (begins : contents.length ≤ digCnt)
    (last : impl.fracBits < config.digSize →
      digCnt ≤ contents.length + 1 ∧ frc < config.digBase) :
    ∃ after, storeFrc config impl digCnt contents.length frc dig = some after ∧
      contents ++ frcDigits config (digCnt - contents.length) frc <+: after ∧
      after.length = dig.length := by
  rw [storeFrc]
  by_cases narrow : config.digSize < impl.fracBits + 1
  · rw [if_pos narrow, if_pos begins]
    apply storeAt_contents holds
    rw [length_frcDigits]
    omega
  · obtain ⟨atMost, small⟩ := last (by omega)
    rw [if_neg narrow]
    by_cases isEnd : contents.length = digCnt
    · rw [if_neg (not_not.mpr isEnd), isEnd, Nat.sub_self, frcDigits, append_nil]
      exact ⟨dig, rfl, holds, rfl⟩
    · have one : digCnt - contents.length = 0 + 1 := by omega
      rw [if_pos isEnd, one, frcDigits_small small, config.store_of_lt small]
      apply storeAt_contents holds
      rw [length_singleton]
      omega

/-- The digits of a shifted fraction, unless a digit that is wider than the fraction is not
shifted into and another one is behind it, which stays as it was. -/
theorem storeShifted_spec (holds : contents <+: dig) (room : digCnt ≤ dig.length)
    (begins : contents.length < digCnt) (inside : shft < config.digSize)
    (small : frc < 2 ^ (impl.fracBits + 1))
    (two : impl.fracBits < config.digSize → digCnt ≤ contents.length + 2) :
    ∃ after, storeShifted config impl digCnt contents.length shft frc dig = some after ∧
      after.length = dig.length ∧
      (contents ++ frcDigits config (digCnt - contents.length) (frc * 2 ^ shft) <+: after ∨
        shft = 0 ∧ frc < config.digBase ∧ digCnt = contents.length + 2 ∧
          contents ++ [frc] <+: after) := by
  have fits (wide : impl.fracBits < config.digSize) : frc < config.digBase :=
    small.trans_le (Nat.pow_le_pow_right (by omega) wide)
  rw [storeShifted]
  by_cases unshifted : shft = 0
  · rw [if_neg (not_not.mpr unshifted), unshifted, Nat.pow_zero, Nat.mul_one]
    by_cases left : impl.fracBits < config.digSize ∧ digCnt = contents.length + 2
    · obtain ⟨wide, isTwo⟩ := left
      have stored : storeFrc config impl digCnt contents.length frc dig =
          storeAt dig contents.length [frc] := by
        rw [storeFrc, if_neg (by omega), if_pos (by omega), config.store_of_lt (fits wide)]
      rw [stored]
      obtain ⟨after, isAfter, grown, length⟩ := @storeAt_contents Nat dig contents [frc] holds (by
        rw [length_singleton]
        omega)
      exact ⟨after, isAfter, length, .inr ⟨rfl, fits wide, isTwo, grown⟩⟩
    · obtain ⟨after, isAfter, grown, length⟩ :=
        @storeFrc_spec config impl contents dig digCnt frc holds room begins.le
          fun wide => ⟨by have := two wide; omega, fits wide⟩
      exact ⟨after, isAfter, length, .inl grown⟩
  · rw [if_pos unshifted]
    obtain ⟨middle, isMiddle, grown, length⟩ := @storeAt_contents Nat dig contents
      [(frc <<< shft) % 2 ^ impl.intBits % config.digBase] holds (by
        rw [length_singleton]
        omega)
    have isLength : (contents ++ [(frc <<< shft) % 2 ^ impl.intBits % config.digBase]).length =
        contents.length + 1 := length_append
    obtain ⟨after, isAfter, rest, lengthAfter⟩ :=
      @storeFrc_spec config impl _ middle digCnt (frc >>> (config.digSize - shft)) grown
        (by rw [length]; exact room) (by rw [isLength]; exact begins) (fun wide => by
          refine ⟨by rw [isLength]; exact two wide, ?_⟩
          exact (Nat.shiftRight_le _ _).trans_lt (fits wide))
    have isCount : digCnt - contents.length = digCnt - (contents.length + 1) + 1 := by omega
    rw [isLength] at isAfter rest
    rw [append_assoc, singleton_append, frcDigits_shift inside, ← isCount] at rest
    refine ⟨after, ?_, lengthAfter.trans length, .inl rest⟩
    rw [isMiddle]
    exact isAfter

/-- What the branch for floats of at least two leaves in the block. -/
theorem mpzSetFromLarge_leaves (free : z.fixedDig = false) {parts : FloatParts}
    (isParts : floatParts config impl adjExp (frc ||| 1 <<< impl.fracBits) = parts)
    (isCount : (adjExp + 1 + (config.digSize - 1)) / config.digSize = digCnt)
    (begins : parts.digInd < digCnt) (inside : parts.shft < config.digSize)
    (small : parts.frc < 2 ^ (impl.fracBits + 1))
    (two : impl.fracBits < config.digSize → digCnt ≤ parts.digInd + 2) :
    ∃ after, mpzSetFromLarge config fill z impl adjExp frc = some after ∧ after.neg = z.neg ∧
      after.len = digCnt ∧
      (after.digits = List.replicate parts.digInd 0 ++
          frcDigits config (digCnt - parts.digInd) (parts.frc * 2 ^ parts.shft) ∨
        parts.shft = 0 ∧ parts.frc < config.digBase ∧ digCnt = parts.digInd + 2 ∧
          ∃ stale, after.digits = List.replicate parts.digInd 0 ++ [parts.frc, stale]) := by
  obtain ⟨block, needed, -, keeps⟩ := @mpzNeedDig_spec fill z free digCnt
  have size : digCnt ≤ block.length := by
    rw [keeps.length]
    exact (Nat.le_max_left _ _).trans (Nat.le_max_right _ _)
  have isLength : (replicate parts.digInd 0).length = parts.digInd := length_replicate
  obtain ⟨zeroed, isZeroed, zeros, zeroedLength⟩ :=
    @storeAt_contents Nat block [] (replicate parts.digInd 0) nil_prefix (by
      rw [isLength, length_nil]
      omega)
  rw [nil_append] at zeros
  have begins' : (replicate parts.digInd 0).length < digCnt := by rwa [isLength]
  obtain ⟨after, isAfter, length, holds⟩ := @storeShifted_spec config impl
    (replicate parts.digInd 0) zeroed digCnt parts.shft parts.frc zeros
    (by rwa [zeroedLength]) begins' inside small (by rwa [isLength])
  rw [isLength] at isAfter holds
  refine ⟨{ z with len := digCnt, dig := after }, ?_, rfl, rfl, ?_⟩
  · rw [mpzSetFromLarge, isCount, isParts]
    simp only [bind, Option.bind, needed]
    rw [length_nil] at isZeroed
    simp only [isZeroed, isAfter]
  · rcases holds with whole | ⟨unshifted, fits, isTwo, front⟩
    · left
      rw [MpzBuf.digits, prefix_iff_eq_take.mp whole]
      simp only [length_append, isLength, length_frcDigits]
      congr 1
      omega
    · right
      refine ⟨unshifted, fits, isTwo, ?_⟩
      obtain ⟨spare, rfl⟩ := front
      cases spare with
      | nil =>
        simp only [length_append, length_replicate, length_singleton,
          append_nil] at length
        omega
      | cons stale spare =>
        refine ⟨stale, ?_⟩
        have isSize : digCnt = (replicate parts.digInd 0 ++ [parts.frc, stale]).length := by
          rw [length_append, isLength]
          exact isTwo
        have isSplit : replicate parts.digInd 0 ++ [parts.frc] ++ stale :: spare =
            replicate parts.digInd 0 ++ [parts.frc, stale] ++ spare := by simp
        rw [MpzBuf.digits, isSplit]
        simp only
        rw [isSize, take_left]

end Blocks

/-! ## The integer -/

section Integers

variable {config : MpzConfig} {impl : FloatImpl} {fill : Nat → Nat} {z after : MpzBuf}
  {digCnt digInd frc adjExp : Nat}

/-- The shift of the fraction to the first digit is the one that the exponent asks for. -/
def ShiftsRight (config : MpzConfig) (impl : FloatImpl) (adjExp : Nat) : Prop :=
  impl.fracBits ≤ adjExp → impl.fracBits ≤ adjExp % config.digSize ∨ config.digSize ∣ 2 ^ 32

theorem ofDigits_zeros_append (count : Nat) (digits : List Nat) :
    Nat.ofDigits config.digBase (List.replicate count 0 ++ digits) =
      config.digBase ^ count * Nat.ofDigits config.digBase digits := by
  rw [Nat.ofDigits_append, Nat.ofDigits_replicate_zero, length_replicate, Nat.zero_add]

theorem digCnt_eq (adjExp : Nat) :
    (adjExp + 1 + (config.digSize - 1)) / config.digSize = adjExp / config.digSize + 1 := by
  have positive : 0 < config.digSize := Nat.lt_of_lt_of_le (by decide) config.atLeast
  have isSum : adjExp + 1 + (config.digSize - 1) = adjExp + config.digSize := by omega
  rw [isSum, Nat.add_div_right _ positive]

theorem digBase_pow_le (adjExp : Nat) :
    config.digBase ^ (adjExp / config.digSize) ≤ 2 ^ adjExp := by
  rw [MpzConfig.digBase, ← Nat.pow_mul]
  exact Nat.pow_le_pow_right (by omega) (Nat.mul_div_le _ _)

theorem lt_digBase_pow (adjExp : Nat) :
    2 ^ (adjExp + 1) ≤ config.digBase ^ (adjExp / config.digSize + 1) := by
  have positive : 0 < config.digSize := Nat.lt_of_lt_of_le (by decide) config.atLeast
  rw [MpzConfig.digBase, ← Nat.pow_mul]
  exact Nat.pow_le_pow_right (by omega) (Nat.lt_mul_div_succ adjExp positive)

theorem valid_of_frcDigits {count : Nat}
    (digits : after.digits = List.replicate digInd 0 ++ frcDigits config count frc)
    (length : after.len = digInd + count) (fits : frc < config.digBase ^ count)
    (atLeast : config.digBase ^ (digInd + count - 1) ≤ config.digBase ^ digInd * frc) :
    Valid config after ∧ after.magnitude config = config.digBase ^ digInd * frc := by
  have isValue : Nat.ofDigits config.digBase
      (replicate digInd 0 ++ frcDigits config count frc) = config.digBase ^ digInd * frc := by
    rw [ofDigits_zeros_append, ofDigits_frcDigits, Nat.mod_eq_of_lt fits]
  have isLength : (replicate digInd 0 ++ frcDigits config count frc).length =
      digInd + count := by
    rw [length_append, length_replicate, length_frcDigits]
  have are : AreDigits config.digBase
      (replicate digInd 0 ++ frcDigits config count frc) :=
    areDigits_append.mpr
      ⟨areDigits_replicate_zero config.digBase_pos _, areDigits_frcDigits _ _⟩
  refine ⟨valid_of_digits digits (length.trans isLength.symm) ⟨are, ?_⟩, ?_⟩
  · apply normal_of_pow_le config.one_lt_digBase are
    rw [isValue, isLength]
    exact atLeast
  · rw [MpzBuf.magnitude, digits, isValue]

theorem or_shiftLeft_eq (frc_lt : frc < 2 ^ impl.fracBits) :
    frc ||| 1 <<< impl.fracBits = 2 ^ impl.fracBits + frc := by
  have joined := Nat.two_pow_add_eq_or_of_lt frc_lt 1
  rw [Nat.mul_one] at joined
  rw [Nat.shiftLeft_eq, Nat.one_mul, Nat.or_comm, ← joined]

/-- The branch for floats of at least two, if some bits of the fraction are behind the point. -/
theorem mpzSetFromLarge_below (free : z.fixedDig = false) (frc_lt : frc < 2 ^ impl.fracBits)
    (below : adjExp < impl.fracBits) :
    ∃ after, mpzSetFromLarge config fill z impl adjExp frc = some after ∧ after.neg = z.neg ∧
      Valid config after ∧ after.magnitude config =
        (2 ^ impl.fracBits + frc) >>> (impl.fracBits - adjExp) := by
  have positive : 0 < config.digSize := Nat.lt_of_lt_of_le (by decide) config.atLeast
  have split : 2 ^ impl.fracBits = 2 ^ adjExp * 2 ^ (impl.fracBits - adjExp) := by
    rw [← Nat.pow_add]
    congr 1
    omega
  have least : 2 ^ adjExp ≤ (2 ^ impl.fracBits + frc) >>> (impl.fracBits - adjExp) := by
    rw [Nat.shiftRight_eq_div_pow, Nat.le_div_iff_mul_le (Nat.two_pow_pos _), ← split]
    exact Nat.le_add_right _ _
  have most : (2 ^ impl.fracBits + frc) >>> (impl.fracBits - adjExp) < 2 ^ (adjExp + 1) := by
    rw [Nat.shiftRight_eq_div_pow, Nat.div_lt_iff_lt_mul (Nat.two_pow_pos _), Nat.pow_succ,
      Nat.mul_right_comm, ← split]
    omega
  have isParts : floatParts config impl adjExp (frc ||| 1 <<< impl.fracBits) =
      ⟨0, 0, (2 ^ impl.fracBits + frc) >>> (impl.fracBits - adjExp)⟩ := by
    rw [or_shiftLeft_eq frc_lt]
    exact if_pos below
  have one (wide : impl.fracBits < config.digSize) : adjExp / config.digSize + 1 ≤ 1 := by
    rw [Nat.div_eq_of_lt (by omega)]
  obtain ⟨after, isAfter, isNeg, isLen, holds⟩ :=
    @mpzSetFromLarge_leaves config impl fill z (adjExp / config.digSize + 1) frc adjExp free _
      isParts (digCnt_eq adjExp) (Nat.succ_pos _) positive
      (most.trans_le (Nat.pow_le_pow_right (by omega) (by omega)))
      (fun wide => (one wide).trans (Nat.le_add_left 1 1))
  simp only [Nat.pow_zero, Nat.mul_one, Nat.sub_zero] at holds
  rcases holds with whole | ⟨-, fits, isTwo, -⟩
  · have result := @valid_of_frcDigits config after 0 _ _ whole (isLen.trans (Nat.zero_add _).symm)
      (most.trans_le (lt_digBase_pow adjExp)) (by
        rw [Nat.zero_add, Nat.add_sub_cancel, Nat.pow_zero, Nat.one_mul]
        exact (digBase_pow_le adjExp).trans least)
    rw [Nat.pow_zero, Nat.one_mul] at result
    exact ⟨after, isAfter, isNeg, result⟩
  · -- A fraction that has another digit behind the first one does not fit into one.
    have notOne : 1 ≤ adjExp / config.digSize := by omega
    have large : config.digBase ^ 1 ≤ 2 ^ adjExp :=
      (Nat.pow_le_pow_right config.digBase_pos notOne).trans (digBase_pow_le adjExp)
    rw [Nat.pow_one] at large
    omega

/-- The branch for floats of at least two, if they are integers. -/
theorem mpzSetFromLarge_above (free : z.fixedDig = false) (frc_lt : frc < 2 ^ impl.fracBits)
    (atLeast : impl.fracBits ≤ adjExp) :
    ∃ after, mpzSetFromLarge config fill z impl adjExp frc = some after ∧ after.neg = z.neg ∧
      (ShiftsRight config impl adjExp → Valid config after) ∧
      (after.magnitude config = (2 ^ impl.fracBits + frc) * 2 ^ (adjExp - impl.fracBits) ↔
        ShiftsRight config impl adjExp) := by
  have positive : 0 < config.digSize := Nat.lt_of_lt_of_le (by decide) config.atLeast
  have right_iff : ShiftsRight config impl adjExp ↔
      floatShft config impl (adjExp % config.digSize) =
        (adjExp - impl.fracBits) % config.digSize := by
    rw [floatShft_eq_iff atLeast]
    exact ⟨fun right => right atLeast, fun right _ => right⟩
  rw [right_iff]
  have isParts : floatParts config impl adjExp (frc ||| 1 <<< impl.fracBits) =
      ⟨floatShft config impl (adjExp % config.digSize),
        (adjExp - impl.fracBits) / config.digSize, 2 ^ impl.fracBits + frc⟩ := by
    rw [or_shiftLeft_eq frc_lt]
    exact if_neg (not_lt.mpr atLeast)
  have begins : (adjExp - impl.fracBits) / config.digSize < adjExp / config.digSize + 1 :=
    Nat.lt_succ_of_le (Nat.div_le_div_right (Nat.sub_le _ _))
  have two (wide : impl.fracBits < config.digSize) :
      adjExp / config.digSize + 1 ≤ (adjExp - impl.fracBits) / config.digSize + 2 := by
    have more : adjExp / config.digSize ≤
        (adjExp - impl.fracBits + config.digSize) / config.digSize :=
      Nat.div_le_div_right (by omega)
    rw [Nat.add_div_right _ positive] at more
    omega
  obtain ⟨after, isAfter, isNeg, isLen, holds⟩ :=
    @mpzSetFromLarge_leaves config impl fill z (adjExp / config.digSize + 1) frc adjExp free _
      isParts (digCnt_eq adjExp) begins (Nat.mod_lt _ positive)
      (by simp only [Nat.pow_succ]; omega) two
  refine ⟨after, isAfter, isNeg, ?_⟩
  simp only at holds
  have present : 0 < 2 ^ impl.fracBits + frc :=
    (Nat.two_pow_pos impl.fracBits).trans_le (Nat.le_add_right _ _)
  -- The number is its fraction shifted into its first digit, with the digits of zeros below it.
  have isNumber : (2 ^ impl.fracBits + frc) * 2 ^ (adjExp - impl.fracBits) =
      config.digBase ^ ((adjExp - impl.fracBits) / config.digSize) *
        ((2 ^ impl.fracBits + frc) * 2 ^ ((adjExp - impl.fracBits) % config.digSize)) := by
    have exponent := Nat.div_add_mod (adjExp - impl.fracBits) config.digSize
    rw [MpzConfig.digBase, ← Nat.pow_mul, Nat.mul_left_comm, ← Nat.pow_add, exponent]
  have least : 2 ^ adjExp ≤ (2 ^ impl.fracBits + frc) * 2 ^ (adjExp - impl.fracBits) := by
    have split : 2 ^ adjExp = 2 ^ impl.fracBits * 2 ^ (adjExp - impl.fracBits) := by
      rw [← Nat.pow_add]
      congr 1
      omega
    rw [split]
    exact Nat.mul_le_mul_right _ (Nat.le_add_right _ _)
  have most : (2 ^ impl.fracBits + frc) * 2 ^ (adjExp - impl.fracBits) < 2 ^ (adjExp + 1) := by
    have split : 2 ^ (adjExp + 1) = 2 ^ (impl.fracBits + 1) * 2 ^ (adjExp - impl.fracBits) := by
      rw [← Nat.pow_add]
      congr 1
      omega
    rw [split]
    exact Nat.mul_lt_mul_of_pos_right (by rw [Nat.pow_succ]; omega) (Nat.two_pow_pos _)
  have isSum : (adjExp - impl.fracBits) / config.digSize +
      (adjExp / config.digSize + 1 - (adjExp - impl.fracBits) / config.digSize) =
        adjExp / config.digSize + 1 := by omega
  have fits : (2 ^ impl.fracBits + frc) * 2 ^ ((adjExp - impl.fracBits) % config.digSize) <
      config.digBase ^
        (adjExp / config.digSize + 1 - (adjExp - impl.fracBits) / config.digSize) := by
    have below := most.trans_le (@lt_digBase_pow config adjExp)
    rw [isNumber, ← isSum, Nat.pow_add] at below
    exact Nat.lt_of_mul_lt_mul_left below
  rcases holds with whole | ⟨unshifted, fitsDigit, isTwo, stale, isDigits⟩
  · constructor
    · intro right
      rw [right] at whole
      refine (valid_of_frcDigits whole (isLen.trans isSum.symm) fits ?_).1
      rw [isSum, Nat.add_sub_cancel, ← isNumber]
      exact (digBase_pow_le adjExp).trans least
    · rw [MpzBuf.magnitude, whole, ofDigits_zeros_append, ofDigits_frcDigits, isNumber]
      rw [Nat.mul_right_inj (Nat.pow_pos config.digBase_pos).ne']
      rw [MpzConfig.digBase, ← Nat.pow_mul] at fits ⊢
      exact shift_mod_eq_iff present fits
  · -- The fraction is not shifted, but it does not end in the first digit.
    have shifts : (adjExp - impl.fracBits) % config.digSize ≠ 0 := by
      intro isZero
      rw [isZero, Nat.pow_zero, Nat.mul_one] at isNumber
      have large : config.digBase ^ ((adjExp - impl.fracBits) / config.digSize + 1) ≤
          config.digBase ^ ((adjExp - impl.fracBits) / config.digSize) *
            (2 ^ impl.fracBits + frc) := by
        have isHigh : (adjExp - impl.fracBits) / config.digSize + 1 = adjExp / config.digSize := by
          omega
        rw [← isNumber, isHigh]
        exact (digBase_pow_le adjExp).trans least
      rw [Nat.pow_succ] at large
      have := Nat.le_of_mul_le_mul_left large (Nat.pow_pos config.digBase_pos)
      omega
    have wrong : floatShft config impl (adjExp % config.digSize) ≠
        (adjExp - impl.fracBits) % config.digSize := by
      rw [unshifted]
      exact shifts.symm
    refine ⟨fun right => absurd right wrong, ⟨fun same => ?_, fun right => absurd right wrong⟩⟩
    rw [MpzBuf.magnitude, isDigits, ofDigits_zeros_append, isNumber,
      Nat.mul_right_inj (Nat.pow_pos config.digBase_pos).ne', Nat.ofDigits_cons,
      Nat.ofDigits_singleton] at same
    have lowest := congrArg (· % config.digBase) same
    simp only [Nat.add_mul_mod_self_left, Nat.mod_eq_of_lt fitsDigit] at lowest
    have unmoved : (2 ^ impl.fracBits + frc) * 2 ^ 0 < 2 ^ config.digSize := by
      rw [Nat.pow_zero, Nat.mul_one]
      exact fitsDigit
    have isZero := (@shift_mod_eq_iff _ _ _ ((adjExp - impl.fracBits) % config.digSize) present
      unmoved).mp (by
        rw [Nat.pow_zero, Nat.mul_one]
        exact lowest.symm)
    exact absurd isZero shifts

theorem mpzSetFromInt_zero (wordBits : Nat) :
    ∃ after, mpzSetFromInt config wordBits fill z 0 = some after ∧ Valid config after ∧
      after.value config = 0 := by
  refine ⟨{ z with len := 0 }, if_pos rfl, valid_of_digits rfl rfl ⟨areDigits_nil, normal_nil⟩, ?_⟩
  exact MpzT.value_nil _

theorem mpzSetFromInt_one (free : z.fixedDig = false) (wordBits : Nat) :
    ∃ after, mpzSetFromInt config wordBits fill z 1 = some after ∧ Valid config after ∧
      after.value config = 1 := by
  obtain ⟨block, needed, -, keeps⟩ :=
    @mpzNeedDig_spec fill z free ((wordBits + config.digSize - 1) / config.digSize)
  have one : setLoop config 1 = [1] := by
    rw [setLoop_eq, Nat.digits_of_lt _ _ (by decide) config.one_lt_digBase]
  have size : 2 ≤ block.length := by
    rw [keeps.length]
    exact (Nat.le_max_right _ _).trans (Nat.le_max_right _ _)
  obtain ⟨after, stored, grown, -⟩ := @storeAt_contents Nat block [] [1] nil_prefix (by
    rw [length_nil, length_singleton]
    omega)
  rw [nil_append] at grown
  have isDigits : after.take 1 = [1] := (prefix_iff_eq_take.mp grown).symm
  refine ⟨{ z with neg := false, len := 1, dig := after }, ?_, ?_, ?_⟩
  · rw [mpzSetFromInt, if_neg (by decide), needed]
    simp only [bind, Option.bind, Int.natAbs_one, one]
    rw [length_nil] at stored
    simp only [stored]
    rfl
  · have formed := @setLoop_wellFormed config false 1
    rw [one] at formed
    exact valid_of_digits (z := ⟨false, z.fixedDig, 1, after⟩) isDigits rfl formed
  · rw [MpzBuf.value_eq, MpzBuf.magnitude, MpzBuf.digits, isDigits, Nat.ofDigits_singleton]
    rfl

theorem signOf_ne_zero (neg : Bool) : signOf neg ≠ 0 := by cases neg <;> decide

end Integers

/-! ## Every float -/

/-- The truncated float is what is set, for every float that is finite, if and only if the float
is not between `-2` and `-1` (`mpz_set_from_int` sets the sign too), and the shift is right. -/
theorem mpzSetFromFloat_iff (config : MpzConfig) {impl : FloatImpl} (wordBits : Nat)
    (fill : Nat → Nat) (z : MpzBuf) (u : FloatFields impl) (free : z.fixedDig = false)
    (finite : u.Finite) :
    (∃ after, mpzSetFromFloat config wordBits fill z u = some after ∧ Valid config after ∧
        after.value config = truncate u.value) ↔
      (u.adjExp = 0 → u.sgn = false) ∧ ShiftsRight config impl u.adjExp.toNat := by
  have wide : 0 < impl.fracBits := by cases impl <;> decide
  have bias : 0 < impl.expBias := by cases impl <;> decide
  rw [u.truncate_value]
  have freeSigned : ({ z with neg := u.sgn } : MpzBuf).fixedDig = false := free
  -- No shift is made for a float below two.
  have unshifted (small : u.adjExp ≤ 0) : ShiftsRight config impl u.adjExp.toNat := by
    intro large
    omega
  by_cases small : u.exp = 0 ∨ u.adjExp < 0
  · have isZero : mpzSetFromFloat config wordBits fill z u =
        mpzSetFromInt config wordBits fill { z with neg := u.sgn } 0 := by
      rw [mpzSetFromFloat]
      by_cases subnormal : u.exp = 0
      · exact if_pos subnormal
      · exact (if_neg subnormal).trans ((if_neg finite).trans
          (if_pos (small.resolve_left subnormal)))
    have negative : u.adjExp < 0 := by
      rcases small with subnormal | negative
      · rw [FloatFields.adjExp, subnormal]
        omega
      · exact negative
    rw [isZero, u.floor_small small, Int.mul_zero]
    constructor
    · intro _
      exact ⟨fun isOne => by omega, unshifted negative.le⟩
    · intro _
      exact mpzSetFromInt_zero wordBits
  · obtain ⟨normal, notNegative⟩ := not_or.mp small
    by_cases isOne : u.adjExp = 0
    · have runs : mpzSetFromFloat config wordBits fill z u =
          mpzSetFromInt config wordBits fill { z with neg := u.sgn } 1 :=
        (if_neg normal).trans ((if_neg finite).trans ((if_neg notNegative).trans (if_pos isOne)))
      obtain ⟨after, isAfter, valid, isValue⟩ :=
        @mpzSetFromInt_one config fill { z with neg := u.sgn } freeSigned wordBits
      have floor : ⌊u.magnitude⌋ = 1 := by
        rw [@FloatFields.floor_fraction impl u 0 normal isOne wide, FloatFields.significand,
          Nat.shiftRight_eq_div_pow, Nat.sub_zero, Nat.add_div_left _ (Nat.two_pow_pos _),
          Nat.div_eq_of_lt u.frc_lt]
        rfl
      rw [runs, floor, Int.mul_one]
      constructor
      · rintro ⟨other, isOther, -, same⟩
        rw [isAfter, Option.some.injEq] at isOther
        rw [← isOther, isValue] at same
        refine ⟨fun _ => ?_, unshifted (by omega)⟩
        cases isSign : u.sgn with
        | false => rfl
        | true =>
          rw [isSign] at same
          cases same
      · rintro ⟨sign, -⟩
        rw [sign isOne]
        exact ⟨after, sign isOne ▸ isAfter, valid, isValue⟩
    · have runs : mpzSetFromFloat config wordBits fill z u =
          mpzSetFromLarge config fill { z with neg := u.sgn } impl u.adjExp.toNat u.frc :=
        (if_neg normal).trans ((if_neg finite).trans ((if_neg notNegative).trans (if_neg isOne)))
      have isExp : u.adjExp = (u.adjExp.toNat : Int) := by omega
      rw [runs]
      by_cases below : u.adjExp.toNat < impl.fracBits
      · obtain ⟨after, isAfter, isNeg, valid, isMagnitude⟩ :=
          @mpzSetFromLarge_below config impl fill { z with neg := u.sgn } u.frc u.adjExp.toNat
            freeSigned u.frc_lt below
        have isValue : after.value config = signOf u.sgn * ⌊u.magnitude⌋ := by
          rw [MpzBuf.value_eq, isNeg, isMagnitude, u.floor_fraction normal isExp below]
          rfl
        exact ⟨fun _ => ⟨fun is => absurd is isOne, fun large => absurd large (not_le.mpr below)⟩,
          fun _ => ⟨after, isAfter, valid, isValue⟩⟩
      · obtain ⟨after, isAfter, isNeg, valid, isRight⟩ :=
          @mpzSetFromLarge_above config impl fill { z with neg := u.sgn } u.frc u.adjExp.toNat
            freeSigned u.frc_lt (not_lt.mp below)
        have value_iff : after.value config = signOf u.sgn * ⌊u.magnitude⌋ ↔
            ShiftsRight config impl u.adjExp.toNat := by
          rw [← isRight, MpzBuf.value_eq, isNeg, u.floor_integer normal isExp (not_lt.mp below),
            Int.mul_eq_mul_left_iff (signOf_ne_zero u.sgn), Nat.cast_inj]
          rfl
        constructor
        · rintro ⟨other, isOther, -, same⟩
          rw [isAfter, Option.some.injEq] at isOther
          rw [← isOther] at same
          exact ⟨fun is => absurd is isOne, value_iff.mp same⟩
        · rintro ⟨-, right⟩
          exact ⟨after, isAfter, valid right, value_iff.mpr right⟩

/-- The float `6.5`. -/
def sixAndHalf : FloatFields .float where
  sgn := false
  exp := 129
  frc := 5242880
  exp_lt := by decide
  frc_lt := by decide

theorem mpzSetFromFloat_iff_six :
    ∃ after, mpzSetFromFloat MpzConfig.digits16 32 id ⟨false, false, 0, []⟩ sixAndHalf =
        some after ∧ Valid MpzConfig.digits16 after ∧
        after.value MpzConfig.digits16 = truncate sixAndHalf.value :=
  (mpzSetFromFloat_iff MpzConfig.digits16 32 id ⟨false, false, 0, []⟩ sixAndHalf rfl
    (by unfold FloatFields.Finite; decide)).mpr ⟨by decide, fun large => absurd large (by decide)⟩

/-- The float `-1.5`. -/
def minusOneAndHalf : FloatFields .float where
  sgn := true
  exp := 127
  frc := 4194304
  exp_lt := by decide
  frc_lt := by decide

/-- The double `2 ^ 60`. -/
def twoPowSixty : FloatFields .double where
  sgn := false
  exp := 1083
  frc := 0
  exp_lt := by decide
  frc_lt := by decide

/-- Digits of 24 bits. -/
def digits24 : MpzConfig where
  digSize := 24
  optBitwise := true
  atLeast := by decide
  atMost := by decide

theorem truncate_minusOneAndHalf : truncate minusOneAndHalf.value = -1 := by
  rw [FloatFields.truncate_value, @FloatFields.floor_fraction .float minusOneAndHalf 0 (by decide)
    (by decide) (by decide)]
  decide

theorem truncate_twoPowSixty : truncate twoPowSixty.value = 2 ^ 60 := by
  rw [FloatFields.truncate_value, @FloatFields.floor_integer .double twoPowSixty 60 (by decide)
    (by decide) (by decide)]
  decide

/-- `-1.5` becomes `1`, and with digits of 24 bits `2 ^ 60` becomes another power of two. -/
theorem mpzSetFromFloat_wrong :
    (∃ after, mpzSetFromFloat MpzConfig.digits16 32 id ⟨false, false, 0, []⟩ minusOneAndHalf =
        some after ∧ after.value MpzConfig.digits16 = 1) ∧
      truncate minusOneAndHalf.value = -1 ∧
      (∃ after, mpzSetFromFloat digits24 32 id ⟨false, false, 0, []⟩ twoPowSixty = some after ∧
        after.value digits24 = 2 ^ 52) ∧
      truncate twoPowSixty.value = 2 ^ 60 := by
  refine ⟨?_, truncate_minusOneAndHalf, ?_, truncate_twoPowSixty⟩
  · have runs : mpzSetFromFloat MpzConfig.digits16 32 id ⟨false, false, 0, []⟩ minusOneAndHalf =
        mpzSetFromInt MpzConfig.digits16 32 id ⟨true, false, 0, []⟩ 1 := rfl
    obtain ⟨after, isAfter, -, isValue⟩ :=
      @mpzSetFromInt_one MpzConfig.digits16 id ⟨true, false, 0, []⟩ rfl 32
    exact ⟨after, runs.trans isAfter, isValue⟩
  · exact ⟨⟨false, false, 3, [0, 0, 16]⟩, by decide, by decide⟩

end MultiPython.Mpz.InPlace
