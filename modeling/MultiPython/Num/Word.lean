import MultiPython.Num.SmallInt

/-!
# Big integers as machine words

The functions of `py/mpz.c` that turn a big integer into a word, and the hash of an integer object.
All of them put the digits together from the high end; two of them compare what they have so far
with a limit before each shift.
-/

namespace MultiPython.Num

open Logic Mpz

namespace NumConfig

section Model

variable (config : NumConfig)

def wordMsbitHigh : Nat := 2 ^ (config.wordBits - 1)

/-- `(val << DIG_SIZE) | *d`, as an `mp_uint_t`. -/
def shiftIn (val d : Nat) : Nat := (val <<< config.mpz.digSize) % 2 ^ config.wordBits ||| d

/-- The loop of `mpz_hash`, on the digits from the high end. -/
def hashLoop (val : Nat) : List Nat → Nat
  | [] => val
  | d :: digits => hashLoop (config.shiftIn val d) digits

def mpzHash (z : MpzT) : Int :=
  let val := config.hashLoop 0 z.dig.reverse
  config.word (if z.neg then -val else val)

/-- The loop of `mpz_as_int_checked` and of `mpz_as_uint_checked`, on the digits from the high
end. It ends with `false` if what there is so far is more than `most`. -/
def checkedLoop (most val : Nat) : List Nat → Option Nat
  | [] => some val
  | d :: digits => if most < val then none else checkedLoop most (config.shiftIn val d) digits

def mpzAsIntChecked (i : MpzT) : Option Int := do
  let most := (2 ^ config.wordBits - 1 - config.wordMsbitHigh) >>> config.mpz.digSize
  let val ← config.checkedLoop most 0 i.dig.reverse
  some (config.word (if i.neg then -val else val))

def mpzAsUintChecked (i : MpzT) : Option Nat :=
  if i.neg then none
  else
    let most := (2 ^ config.wordBits - 1 - config.wordMsbitHigh) >>> (config.mpz.digSize - 1)
    config.checkedLoop most 0 i.dig.reverse

/-- `mp_unary_op` for the hash of a small int. -/
def smallIntHash (arg : Int) : Int := arg

/-- `mp_obj_int_unary_op` for the hash of a big integer. -/
def mpObjIntHash (z : MpzT) : Int := config.newSmallInt (config.mpzHash z)

end Model

section Conversions

/-! ## The loops -/

variable {config : NumConfig} (wider : config.mpz.digSize < config.wordBits)

theorem wordBase_eq (wider : config.mpz.digSize < config.wordBits) :
    2 ^ config.wordBits = config.mpz.digBase * 2 ^ (config.wordBits - config.mpz.digSize) := by
  rw [MpzConfig.digBase, ← Nat.pow_add]
  congr 1
  omega

include wider

theorem shiftIn_eq {val d : Nat} (isDigit : d < config.mpz.digBase) :
    config.shiftIn val d = (val * config.mpz.digBase + d) % 2 ^ config.wordBits := by
  have shifted : (val * config.mpz.digBase) % 2 ^ config.wordBits =
      config.mpz.digBase * (val % 2 ^ (config.wordBits - config.mpz.digSize)) := by
    rw [wordBase_eq wider, Nat.mul_comm val, Nat.mul_mod_mul_left]
  have together : config.mpz.digBase * (val % 2 ^ (config.wordBits - config.mpz.digSize)) + d <
      2 ^ config.wordBits := by
    have small := Nat.mod_lt val (Nat.two_pow_pos (config.wordBits - config.mpz.digSize))
    have below := Nat.mul_le_mul_left config.mpz.digBase small
    rw [Nat.mul_succ, ← wordBase_eq wider] at below
    omega
  rw [shiftIn, Nat.shiftLeft_eq, ← MpzConfig.digBase, shifted, Nat.add_mod, shifted,
    Nat.mod_eq_of_lt (isDigit.trans_le ?_), Nat.mod_eq_of_lt together]
  · exact (Nat.two_pow_add_eq_or_of_lt isDigit _).symm
  · exact Nat.pow_le_pow_right (by omega) wider.le

theorem hashLoop_eq {val : Nat} {digits : List Nat} (are : AreDigits config.mpz.digBase digits)
    (small : val < 2 ^ config.wordBits) :
    config.hashLoop val digits =
      (val * config.mpz.digBase ^ digits.length + Nat.ofDigits config.mpz.digBase digits.reverse) %
        2 ^ config.wordBits := by
  induction digits generalizing val with
  | nil => simpa [hashLoop] using (Nat.mod_eq_of_lt small).symm
  | cons d digits ih =>
    rw [areDigits_cons] at are
    have step := @shiftIn_eq config wider val d are.1
    rw [hashLoop, ih are.2 (step ▸ Nat.mod_lt _ (Nat.two_pow_pos _)), step,
      ofDigits_reverse_cons]
    exact ((Nat.mod_modEq _ _).mul_right _).add_right _

/-- The checked loop finds out whether the value is below the limit, if its test finds out whether
the next step stays below it. -/
theorem checkedLoop_eq {most limit val : Nat} {digits : List Nat}
    (are : AreDigits config.mpz.digBase digits) (fits : limit ≤ 2 ^ config.wordBits)
    (test : ∀ val d, d < config.mpz.digBase →
      (val ≤ most ↔ val * config.mpz.digBase + d < limit)) (small : val < limit) :
    config.checkedLoop most val digits =
      let value := val * config.mpz.digBase ^ digits.length +
        Nat.ofDigits config.mpz.digBase digits.reverse
      if value < limit then some value else none := by
  induction digits generalizing val with
  | nil => simp [checkedLoop, small]
  | cons d digits ih =>
    rw [areDigits_cons] at are
    rw [checkedLoop, ofDigits_reverse_cons]
    by_cases within : val ≤ most
    · have next := (test val d are.1).mp within
      have step : config.shiftIn val d = val * config.mpz.digBase + d := by
        rw [shiftIn_eq wider are.1, Nat.mod_eq_of_lt (next.trans_le fits)]
      rw [if_neg (Nat.not_lt.mpr within), step, ih are.2 next]
    · have next : limit ≤ val * config.mpz.digBase + d :=
        Nat.not_lt.mp fun below => within ((test val d are.1).mpr below)
      have positive : 0 < config.mpz.digBase ^ digits.length :=
        Nat.pow_pos config.mpz.digBase_pos
      have large : limit ≤ (val * config.mpz.digBase + d) * config.mpz.digBase ^ digits.length :=
        next.trans (Nat.le_mul_of_pos_right _ positive)
      rw [if_pos (Nat.not_le.mp within), if_neg (by omega)]

omit wider in
/-- Whether one more digit fits below a multiple of the base does not depend on the digit. -/
theorem mul_add_lt_iff {base val d count : Nat} (isDigit : d < base) :
    val * base + d < count * base ↔ val * base < count * base := by
  refine ⟨fun below => (Nat.le_add_right _ d).trans_lt below, fun below => ?_⟩
  have less : val < count := Nat.lt_of_mul_lt_mul_right below
  have room := Nat.mul_le_mul_right base less
  rw [Nat.succ_mul] at room
  omega

omit wider in
theorem two_mul_msbit : 2 * config.wordMsbitHigh = 2 ^ config.wordBits := by
  have large := config.large
  rw [wordMsbitHigh, ← Nat.pow_succ']
  congr 1
  omega

theorem intLoop_eq {z : MpzT} (are : AreDigits config.mpz.digBase z.dig) :
    config.checkedLoop ((2 ^ config.wordBits - 1 - config.wordMsbitHigh) >>> config.mpz.digSize) 0
        z.dig.reverse =
      let value := Nat.ofDigits config.mpz.digBase z.dig
      if value < config.wordMsbitHigh then some value else none := by
  have msbit := @two_mul_msbit config
  have split : config.wordMsbitHigh =
      2 ^ (config.wordBits - 1 - config.mpz.digSize) * config.mpz.digBase := by
    rw [wordMsbitHigh, MpzConfig.digBase, ← Nat.pow_add]
    congr 1
    omega
  have positive : 0 < config.wordMsbitHigh := Nat.two_pow_pos _
  have test : ∀ val d, d < config.mpz.digBase →
      (val ≤ (2 ^ config.wordBits - 1 - config.wordMsbitHigh) >>> config.mpz.digSize ↔
        val * config.mpz.digBase + d < config.wordMsbitHigh) := by
    intro val d isDigit
    have most : 2 ^ config.wordBits - 1 - config.wordMsbitHigh = config.wordMsbitHigh - 1 := by omega
    rw [most, Nat.shiftRight_eq_div_pow, ← MpzConfig.digBase,
      Nat.le_div_iff_mul_le config.mpz.digBase_pos, Nat.le_sub_one_iff_lt positive, split,
      mul_add_lt_iff isDigit]
  rw [checkedLoop_eq wider (areDigits_reverse.mpr are) (by omega) test positive]
  simp

theorem uintLoop_eq {z : MpzT} (are : AreDigits config.mpz.digBase z.dig) :
    config.checkedLoop ((2 ^ config.wordBits - 1 - config.wordMsbitHigh) >>> (config.mpz.digSize - 1)) 0
        z.dig.reverse =
      let value := Nat.ofDigits config.mpz.digBase z.dig
      if value < 2 ^ config.wordBits then some value else none := by
  have msbit := @two_mul_msbit config
  have twice : 2 * 2 ^ (config.mpz.digSize - 1) = config.mpz.digBase := by
    have atLeast := config.mpz.atLeast
    rw [MpzConfig.digBase, ← Nat.pow_succ']
    congr 1
    omega
  have positive : 0 < config.wordMsbitHigh := Nat.two_pow_pos _
  have test : ∀ val d, d < config.mpz.digBase →
      (val ≤ (2 ^ config.wordBits - 1 - config.wordMsbitHigh) >>> (config.mpz.digSize - 1) ↔
        val * config.mpz.digBase + d < 2 ^ config.wordBits) := by
    intro val d isDigit
    have most : 2 ^ config.wordBits - 1 - config.wordMsbitHigh = config.wordMsbitHigh - 1 := by omega
    have whole : 2 ^ config.wordBits =
        2 ^ (config.wordBits - config.mpz.digSize) * config.mpz.digBase := by
      rw [wordBase_eq wider, Nat.mul_comm]
    rw [whole, mul_add_lt_iff isDigit, ← whole, most, Nat.shiftRight_eq_div_pow,
      Nat.le_div_iff_mul_le (Nat.two_pow_pos _), Nat.le_sub_one_iff_lt positive, ← msbit, ← twice,
      Nat.mul_left_comm, Nat.mul_lt_mul_left (by omega)]
  rw [checkedLoop_eq wider (areDigits_reverse.mpr are) (Nat.le_refl _) test (Nat.two_pow_pos _)]
  simp

/-! ## The conversions -/

omit wider in
theorem word_congr {x y : Int} (same : x ≡ y [ZMOD 2 ^ config.wordBits]) :
    config.word x = config.word y := by
  have cast : ((2 ^ config.wordBits : Nat) : Int) = 2 ^ config.wordBits := by push_cast; rfl
  rw [word, word, ← Int.emod_bmod, ← Int.emod_bmod y, cast, same]

omit wider in
/-- A word is congruent to what is assigned to it. -/
theorem word_emod (x : Int) : config.word x % 2 ^ config.wordBits = x % 2 ^ config.wordBits := by
  have cast : ((2 ^ config.wordBits : Nat) : Int) = 2 ^ config.wordBits := by push_cast; rfl
  rw [word, ← cast, Int.bmod_emod]

section Digits

variable {z : MpzT} (are : AreDigits config.mpz.digBase z.dig)
include are

theorem mpzHash_eq : config.mpzHash z = config.word (z.value config.mpz) := by
  have read := hashLoop_eq wider (areDigits_reverse.mpr are) (Nat.two_pow_pos config.wordBits)
  rw [Nat.zero_mul, Nat.zero_add, List.reverse_reverse] at read
  have wraps : ((config.hashLoop 0 z.dig.reverse : Nat) : Int) ≡
      (Nat.ofDigits config.mpz.digBase z.dig : Nat) [ZMOD 2 ^ config.wordBits] := by
    rw [read]
    push_cast
    exact Int.mod_modEq _ _
  rw [mpzHash, MpzT.value]
  cases z.neg with
  | false => exact word_congr wraps
  | true => exact word_congr wraps.neg

theorem mpzAsIntChecked_eq :
    config.mpzAsIntChecked z =
      if Nat.ofDigits config.mpz.digBase z.dig < config.wordMsbitHigh then some (z.value config.mpz)
      else none := by
  by_cases below : Nat.ofDigits config.mpz.digBase z.dig < config.wordMsbitHigh
  · have cast : ((2 * config.wordMsbitHigh : Nat) : Int) = 2 ^ config.wordBits := by
      rw [two_mul_msbit]
      push_cast
      rfl
    have unchanged : config.word (z.value config.mpz) = z.value config.mpz := by
      rw [MpzT.value]
      split_ifs <;> exact word_eq_of (by omega) (by omega)
    simp only [mpzAsIntChecked, intLoop_eq wider are, below, if_true, Option.bind_eq_bind,
      Option.bind_some]
    rw [← unchanged]
    rfl
  · simp [mpzAsIntChecked, intLoop_eq wider are, below]

theorem mpzAsUintChecked_eq :
    config.mpzAsUintChecked z =
      if z.neg = false ∧ Nat.ofDigits config.mpz.digBase z.dig < 2 ^ config.wordBits then
        some (Nat.ofDigits config.mpz.digBase z.dig)
      else none := by
  rw [mpzAsUintChecked]
  cases z.neg with
  | true => simp
  | false => simpa using uintLoop_eq wider are

end Digits

/-! ## When the conversions are exact -/

/-- The conversions succeed on the numbers that a word can hold and no others; big integers and
small ints of one value have one hash. -/
structure ConvertsExactly (config : NumConfig) (z : MpzT) : Prop where
  asInt : config.mpzAsIntChecked z =
    if -2 ^ (config.wordBits - 1) ≤ z.value config.mpz ∧
        z.value config.mpz < 2 ^ (config.wordBits - 1) then some (z.value config.mpz) else none
  asUint : config.mpzAsUintChecked z =
    if 0 ≤ z.value config.mpz ∧ z.value config.mpz < 2 ^ config.wordBits then
      some (z.value config.mpz).toNat else none
  hash : config.mpzHash z % 2 ^ config.wordBits = z.value config.mpz % 2 ^ config.wordBits
  alike : ∀ small, config.SmallIntFits small → z.value config.mpz = small →
    config.mpObjIntHash z = smallIntHash small

section Exactness

variable {z : MpzT} (are : AreDigits config.mpz.digBase z.dig)
include are

theorem asInt_exact_iff :
    (config.mpzAsIntChecked z =
      if -2 ^ (config.wordBits - 1) ≤ z.value config.mpz ∧
          z.value config.mpz < 2 ^ (config.wordBits - 1) then some (z.value config.mpz) else none) ↔
      z.value config.mpz ≠ -2 ^ (config.wordBits - 1) := by
  have msbit : ((config.wordMsbitHigh : Nat) : Int) = 2 ^ (config.wordBits - 1) := by
    rw [wordMsbitHigh]
    push_cast
    rfl
  have positive : 0 < config.wordMsbitHigh := Nat.two_pow_pos _
  rw [mpzAsIntChecked_eq wider are, ← msbit, MpzT.value]
  cases z.neg with
  | false =>
    simp only [Bool.false_eq_true, if_false]
    refine iff_of_true (if_congr ?_ rfl rfl) (by omega)
    omega
  | true =>
    simp only [if_true]
    constructor
    · intro same least
      rw [if_neg (by omega), if_pos (by omega)] at same
      cases same
    · intro other
      refine if_congr ?_ rfl rfl
      omega

theorem asUint_exact_iff :
    (config.mpzAsUintChecked z =
      if 0 ≤ z.value config.mpz ∧ z.value config.mpz < 2 ^ config.wordBits then
        some (z.value config.mpz).toNat else none) ↔
      ¬(z.neg = true ∧ z.value config.mpz = 0) := by
  have cast : ((2 ^ config.wordBits : Nat) : Int) = 2 ^ config.wordBits := by push_cast; rfl
  have positive : 0 < 2 ^ config.wordBits := Nat.two_pow_pos _
  rw [mpzAsUintChecked_eq wider are, ← cast, MpzT.value]
  cases z.neg with
  | false =>
    simp only [Bool.false_eq_true, if_false, true_and, false_and, not_false_iff, iff_true]
    refine if_congr ?_ (by rw [Int.toNat_natCast]) rfl
    omega
  | true =>
    simp only [if_true, true_and, Bool.true_eq_false, false_and, if_false]
    constructor
    · intro same isZero
      rw [if_pos (by omega)] at same
      cases same
    · intro nonzero
      rw [if_neg (by omega)]

/-- The conversions to words are exact but for the least number of a word, and for a zero with the
sign of a negative number. -/
theorem convertsExactly_iff :
    config.ConvertsExactly z ↔
      z.value config.mpz ≠ -2 ^ (config.wordBits - 1) ∧
        ¬(z.neg = true ∧ z.value config.mpz = 0) := by
  rw [← asInt_exact_iff wider are, ← asUint_exact_iff wider are]
  refine ⟨fun exact => ⟨exact.asInt, exact.asUint⟩, fun ⟨asInt, asUint⟩ => ⟨asInt, asUint, ?_, ?_⟩⟩
  · rw [mpzHash_eq wider are, word_emod]
  · intro small fits isSmall
    have inWord : config.word small = small := by
      have bounds := fits_iff.mp fits
      exact word_eq (by omega) (by omega)
    rw [mpObjIntHash, mpzHash_eq wider are, isSmall, inWord, newSmallInt_eq fits, smallIntHash]

end Exactness

end Conversions

/-- A word of 64 bits and digits of 32 bits. -/
def word64 : NumConfig where
  repr := .a
  wordBits := 64
  float := true
  mpz := .digits32
  large := by decide
  wide := by decide

/-- The number after the least one. -/
theorem convertsExactly_after_least :
    word64.mpzAsIntChecked ⟨true, [0xffffffff, 0x7fffffff]⟩ = some (-2 ^ 63 + 1) ∧
      word64.ConvertsExactly ⟨true, [0xffffffff, 0x7fffffff]⟩ :=
  ⟨by decide, (convertsExactly_iff (by decide) (by unfold AreDigits; decide)).mpr
    ⟨by decide, by decide⟩⟩

/-- The least number of a word is refused. -/
theorem least_word_refused :
    (⟨true, [0, 0x80000000]⟩ : MpzT).value word64.mpz = -2 ^ 63 ∧
      word64.mpzAsIntChecked ⟨true, [0, 0x80000000]⟩ = none ∧
      ¬ word64.ConvertsExactly ⟨true, [0, 0x80000000]⟩ := by
  refine ⟨by decide, by decide, fun exact => ?_⟩
  have refused := exact.asInt
  exact absurd refused (by decide)

end NumConfig

end MultiPython.Num
