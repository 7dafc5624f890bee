import MultiPython.Mpz.Text
import MultiPython.Num.Word

/-!
# Formatted integers

`mp_obj_int_formatted` of `py/objint.c`. A small int is written from the end of a buffer towards
its front; `mpz_as_str_inpl` writes a big integer backwards and then turns the text around. Both
are compared with the text that an integer is meant to have, with a comma after every third digit
from the right.
-/

namespace MultiPython.Num

open Logic Mpz List Option

/-! ## The text of an integer -/

/-- The digits of a number, the lowest first; zero has one digit. -/
def digitsOf (base value : Nat) : List Nat := if value = 0 then [0] else Nat.digits base value

/-- Put a comma after every third character while there are more. -/
def groupThrees (comma : Nat) : List Nat → List Nat
  | first :: second :: third :: next :: str =>
    first :: second :: third :: comma :: groupThrees comma (next :: str)
  | str => str

/-- The digits with or without commas, the lowest first. -/
def grouped (comma : Nat) (str : List Nat) : List Nat := if comma = 0 then str else groupThrees comma str

/-- The text of an integer: the sign, the prefix and the digits. -/
def integerText (value : Int) (base : Nat) (prefixText : List Nat) (baseChar comma : Nat) : List Nat :=
  (if value < 0 then ['-'.toNat] else []) ++ prefixText ++
    (grouped comma ((digitsOf base value.natAbs).map (digitChar baseChar))).reverse

/-! ## Small ints -/

/-- What has been written to the end of the buffer, and how many bytes there are in front of it. -/
structure Written where
  room : Nat
  text : List Nat

/-- `*(--b) = c`. -/
def Written.put (written : Written) (c : Nat) : Option Written :=
  if written.room = 0 then none else some ⟨written.room - 1, c :: written.text⟩

/-- The character of a digit. -/
def smallDigitChar (baseChar c : Nat) : Nat :=
  if 10 ≤ c then (c + baseChar - 10) % 256 else c + '0'.toNat

/-- The loop of `mp_obj_int_formatted`; `lastComma` is the length of the text at `last_comma`. -/
def formattedLoop (base baseChar comma : Nat) : Nat → Nat → Written → Nat → Option Written
  | 0, _, _, _ => none
  | fuel + 1, num, written, lastComma => do
      let rest := num / base
      let digit ← written.put (smallDigitChar baseChar (num % base))
      if comma ≠ 0 ∧ rest ≠ 0 ∧ 0 < digit.room ∧ digit.text.length - lastComma = 3 then
        let group ← digit.put comma
        if 0 < group.room ∧ rest ≠ 0 then
          formattedLoop base baseChar comma fuel rest group group.text.length
        else some group
      else if 0 < digit.room ∧ rest ≠ 0 then
        formattedLoop base baseChar comma fuel rest digit lastComma
      else some digit

/-- The digits; the loop is not for zero. -/
def formattedDigits (base baseChar comma bits num : Nat) (start : Written) : Option Written :=
  if num = 0 then start.put '0'.toNat
  else formattedLoop base baseChar comma bits num start 0

/-- Copy the prefix in front of the text, if there is room for it. -/
def Written.putPrefix (written : Written) (prefixText : List Nat) : Written :=
  if prefixText.length < written.room then
    ⟨written.room - prefixText.length, prefixText ++ written.text⟩
  else written

namespace NumConfig

variable (config : NumConfig)

/-- `mp_obj_int_formatted`, for a small int. -/
def mpObjIntFormatted (value : Int) (base : Nat) (prefixText : List Nat) (baseChar comma : Nat) :
    Option (List Nat) := do
  let num := if value < 0 then config.word (-value) else value
  let neededSize := mpIntFormatSize config.wordBits base prefixText comma
  let digits ← formattedDigits base baseChar comma config.wordBits
    (num % 2 ^ config.wordBits).toNat ⟨neededSize - 1, []⟩
  let whole := digits.putPrefix prefixText
  if value < 0 ∧ 0 < whole.room then (whole.put '-'.toNat).map Written.text
  else some whole.text

end NumConfig

/-! ## Commas -/

section Commas

variable {comma count : Nat} {str : List Nat}

/-- Put a comma after each third character, counted from the last comma, while there are more. -/
def groupBetween (comma count : Nat) : List Nat → List Nat
  | [] => []
  | c :: str =>
    if comma ≠ 0 ∧ str ≠ [] ∧ count + 1 = 3 then c :: comma :: groupBetween comma 0 str
    else c :: groupBetween comma (count + 1) str

theorem groupBetween_zero (str : List Nat) (count : Nat) : groupBetween 0 count str = str := by
  induction str generalizing count with
  | nil => rfl
  | cons c str ih => simp [groupBetween, ih]

theorem groupBetween_eq (isComma : comma ≠ 0) (str : List Nat) :
    groupBetween comma 0 str = groupThrees comma str := by
  induction str using groupThrees.induct with
  | case1 first second third next str ih =>
    rw [groupThrees, ← ih]
    simp [groupBetween, isComma]
  | case2 str few =>
    rw [groupThrees]
    · match str with
      | [] => rfl
      | [_] => simp [groupBetween]
      | [_, _] => simp [groupBetween]
      | [_, _, _] => simp [groupBetween]
      | first :: second :: third :: next :: str => exact absurd rfl (few first second third next str)
    · exact few

theorem groupBetween_eq_grouped (comma : Nat) (str : List Nat) :
    groupBetween comma 0 str = grouped comma str := by
  rw [grouped]
  split_ifs with none
  · rw [none, groupBetween_zero]
  · exact groupBetween_eq none str

theorem groupCommas_zero (str : List Nat) (count : Nat) : groupCommas 0 count str = str := by
  induction str generalizing count with
  | nil => rfl
  | cons c str ih => simp [groupCommas, ih]

theorem groupCommas_eq (isComma : comma ≠ 0) (few : count < 3) (str : List Nat) :
    groupCommas comma count str = groupBetween comma count str ++
      if str ≠ [] ∧ (count + str.length) % 3 = 0 then [comma] else [] := by
  induction str generalizing count with
  | nil => simp [groupCommas, groupBetween]
  | cons c str ih =>
    rw [groupCommas, groupBetween]
    by_cases third : count + 1 = 3
    · have counted : (count + (c :: str).length) % 3 = (0 + str.length) % 3 := by
        rw [length_cons]
        omega
      rw [if_pos ⟨isComma, third⟩, counted, ih (by omega)]
      cases str with
      | nil => simp [groupBetween]
      | cons next str => simp [isComma, third]
    · have counted : count + (c :: str).length = count + 1 + str.length := by
        rw [length_cons]
        omega
      rw [if_neg fun group => third group.2, if_neg fun group => third group.2.2, counted,
        ih (by omega)]
      cases str with
      | nil => simp; omega
      | cons next str => simp

theorem length_groupBetween_le (comma : Nat) (few : count < 3) (str : List Nat) :
    (groupBetween comma count str).length ≤
      str.length + if comma ≠ 0 then (count + str.length) / 3 else 0 := by
  by_cases isComma : comma = 0
  · simp [isComma, groupBetween_zero]
  · have counted := @length_groupCommas comma str count few
    rw [groupCommas_eq isComma few, length_append] at counted
    exact (Nat.le_add_right _ _).trans counted

end Commas

/-! ## Writing towards the front -/

section Loop

variable {base baseChar comma : Nat}

theorem smallDigitChar_eq (c : Nat) : smallDigitChar baseChar c = digitChar baseChar c := by
  simp only [smallDigitChar, digitChar, Char.reduceToNat]
  by_cases letter : 10 ≤ c
  · rw [if_pos letter, if_pos (by omega)]
    congr 1
    omega
  · rw [if_neg letter, if_neg (by omega)]

theorem Written.put_eq {written : Written} (room : 0 < written.room) (c : Nat) :
    written.put c = some ⟨written.room - 1, c :: written.text⟩ := if_neg room.ne'

/-- Characters written one after the other, each in front of the last. -/
def Written.putAll (written : Written) (str : List Nat) : Written :=
  ⟨written.room - str.length, str.reverse ++ written.text⟩

theorem Written.putAll_cons (written : Written) (c : Nat) (str : List Nat) :
    written.putAll (c :: str) = Written.putAll ⟨written.room - 1, c :: written.text⟩ str := by
  simp only [putAll, length_cons, reverse_cons, append_assoc, singleton_append]
  congr 1
  omega

/-- The loop writes the digits in front of what is there, if there is room for more. -/
theorem formattedLoop_spec (large : 2 ≤ base) {fuel num lastComma : Nat} {written : Written}
    (positive : 0 < num) (enough : num < 2 ^ fuel) (before : lastComma ≤ written.text.length)
    (room : (groupBetween comma (written.text.length - lastComma)
      ((Nat.digits base num).map (digitChar baseChar))).length < written.room) :
    formattedLoop base baseChar comma fuel num written lastComma =
      some (written.putAll (groupBetween comma (written.text.length - lastComma)
        ((Nat.digits base num).map (digitChar baseChar)))) := by
  induction fuel generalizing num written lastComma with
  | zero => omega
  | succ fuel ih =>
    have lower : num / base < 2 ^ fuel := by
      rw [Nat.pow_succ] at enough
      refine Nat.div_lt_of_lt_mul (enough.trans_le ?_)
      rw [Nat.mul_comm]
      exact Nat.mul_le_mul_right _ large
    have someRoom : 0 < written.room := Nat.zero_lt_of_lt room
    have count : (digitChar baseChar (num % base) :: written.text).length - lastComma =
        written.text.length - lastComma + 1 := by
      rw [length_cons]
      omega
    rw [Nat.digits_def' (by omega) positive, map_cons] at room ⊢
    simp only [formattedLoop, smallDigitChar_eq, Written.put_eq someRoom, bind_eq_bind,
      bind_some, count]
    by_cases last : num / base = 0
    · simp [last, groupBetween, Written.putAll]
    have more : (Nat.digits base (num / base)).map (digitChar baseChar) ≠ [] := by
      rw [Ne, map_eq_nil_iff, Nat.digits_eq_nil_iff_eq_zero]
      exact last
    have rest := Nat.pos_of_ne_zero last
    have splits := groupBetween.eq_2 comma (written.text.length - lastComma)
      (digitChar baseChar (num % base)) ((Nat.digits base (num / base)).map (digitChar baseChar))
    by_cases group : comma ≠ 0 ∧ written.text.length - lastComma + 1 = 3
    · rw [if_pos ⟨group.1, more, group.2⟩] at splits
      rw [splits] at room ⊢
      simp only [length_cons] at room
      have groupRoom : 0 < written.room - 1 := by omega
      rw [if_pos ⟨group.1, last, groupRoom, group.2⟩, Written.put_eq groupRoom, bind_some,
        if_pos ⟨by simp only; omega, last⟩, Written.putAll_cons, Written.putAll_cons]
      have step := @ih (num / base) _
        ⟨written.room - 1 - 1, comma :: digitChar baseChar (num % base) :: written.text⟩ rest lower
        (Nat.le_refl _) (by simp only [Nat.sub_self]; omega)
      rw [Nat.sub_self] at step
      exact step
    · rw [if_neg fun third => group ⟨third.1, third.2.2⟩] at splits
      rw [splits] at room ⊢
      simp only [length_cons] at room
      rw [if_neg fun third => group ⟨third.1, third.2.2.2⟩, if_pos ⟨by omega, last⟩,
        Written.putAll_cons]
      have step := @ih (num / base) lastComma
        ⟨written.room - 1, digitChar baseChar (num % base) :: written.text⟩ rest lower
        (by simp only [length_cons]; omega) (by simp only [count]; omega)
      rw [count] at step
      exact step

end Loop

/-! ## Both formatters -/

section Formatters

variable {config : NumConfig} {base baseChar comma : Nat} {prefixText : List Nat}

theorem digitsOf_ne_nil (base value : Nat) : digitsOf base value ≠ [] := by
  rw [digitsOf]
  split_ifs with zero
  · simp
  · exact Nat.digits_ne_nil_iff_ne_zero.mpr zero

theorem length_grouped_le (baseChar comma : Nat) (prefixText : List Nat) {value : Nat} (atLeast : 2 ≤ base) (atMost : base ≤ 16)
    (fits : value < 2 ^ config.wordBits) :
    (grouped comma ((digitsOf base value).map (digitChar baseChar))).length + prefixText.length + 2 ≤
      mpIntFormatSize config.wordBits base prefixText comma := by
  have digits : (digitsOf base value).length ≤
      config.wordBits / logBase2Floor.getD (base - 1) 0 + 1 := by
    rw [digitsOf]
    split_ifs with zero
    · simp
    · exact length_digits_le atLeast atMost (Nat.pos_of_ne_zero zero) fits
  have counted := length_groupBetween_le comma (by omega : 0 < 3)
    ((digitsOf base value).map (digitChar baseChar))
  rw [groupBetween_eq_grouped, length_map, Nat.zero_add] at counted
  rw [mpIntFormatSize]
  generalize config.wordBits / logBase2Floor.getD (base - 1) 0 = most at *
  split_ifs at counted ⊢ <;> omega

theorem formattedDigits_eq {bits value room : Nat} (atLeast : 2 ≤ base) (fits : value < 2 ^ bits)
    (enough : (grouped comma ((digitsOf base value).map (digitChar baseChar))).length < room) :
    formattedDigits base baseChar comma bits value ⟨room, []⟩ =
      some (Written.putAll ⟨room, []⟩
        (grouped comma ((digitsOf base value).map (digitChar baseChar)))) := by
  rw [formattedDigits]
  by_cases zero : value = 0
  · have isZero : grouped comma ((digitsOf base 0).map (digitChar baseChar)) = ['0'.toNat] := by
      rw [digitsOf, if_pos rfl, grouped]
      split_ifs <;> rfl
    rw [zero, isZero, if_pos rfl, Written.put_eq (Nat.zero_lt_of_lt enough)]
    rfl
  · have isDigits : digitsOf base value = Nat.digits base value := if_neg zero
    rw [isDigits, ← groupBetween_eq_grouped] at enough ⊢
    rw [if_neg zero]
    exact formattedLoop_spec atLeast (Nat.pos_of_ne_zero zero) fits (Nat.zero_le _)
      (by simpa using enough)

/-- The formatter of small ints writes the text of the integer. -/
theorem mpObjIntFormatted_eq {value : Int} (fits : config.SmallIntFits value) (atLeast : 2 ≤ base)
    (atMost : base ≤ 16) :
    config.mpObjIntFormatted value base prefixText baseChar comma =
      some (integerText value base prefixText baseChar comma) := by
  obtain ⟨lower, upper⟩ := NumConfig.fits_iff.mp fits
  have inWord := @NumConfig.room config
  have negated : config.word (-value) = -value := NumConfig.word_eq (by omega) (by omega)
  have isNum : (if value < 0 then config.word (-value) else value) = value.natAbs := by
    rw [negated]
    split_ifs <;> omega
  have small : value.natAbs < 2 ^ config.wordBits := by
    have cast : ((2 ^ config.wordBits : Nat) : Int) = 2 ^ config.wordBits := by push_cast; rfl
    omega
  have unsigned : ((value.natAbs : Int) % 2 ^ config.wordBits).toNat = value.natAbs := by
    have cast : ((2 ^ config.wordBits : Nat) : Int) = 2 ^ config.wordBits := by push_cast; rfl
    rw [← cast, ← Int.natCast_mod, Nat.mod_eq_of_lt small, Int.toNat_natCast]
  have size := length_grouped_le baseChar comma prefixText atLeast atMost small
  obtain ⟨needed, isNeeded⟩ : ∃ needed, needed =
      mpIntFormatSize config.wordBits base prefixText comma := ⟨_, rfl⟩
  rw [← isNeeded] at size
  have digits := @formattedDigits_eq base baseChar comma config.wordBits value.natAbs (needed - 1)
    atLeast small (by omega)
  simp only [NumConfig.mpObjIntFormatted, isNum, unsigned, ← isNeeded, digits, bind_eq_bind,
    bind_some]
  rw [integerText]
  generalize grouped comma ((digitsOf base value.natAbs).map (digitChar baseChar)) = str at *
  have prefixFits : prefixText.length < (Written.putAll ⟨needed - 1, []⟩ str).room := by
    simp only [Written.putAll]
    omega
  have signFits : 0 < (Written.putAll ⟨needed - 1, []⟩ str).room - prefixText.length := by
    simp only [Written.putAll]
    omega
  rw [Written.putPrefix, if_pos prefixFits]
  by_cases negative : value < 0
  · rw [if_pos ⟨negative, signFits⟩, if_pos negative, Written.put_eq signFits]
    simp [Written.putAll]
  · rw [if_neg fun sign => negative sign.1, if_neg negative]
    simp [Written.putAll]

/-- The formatter of big integers counts the groups from the right, and does not look whether a
group is the last one. -/
theorem mpzAsStrInpl_eq {z : MpzT} (wellFormed : WellFormed config.mpz z) (atLeast : 2 ≤ base)
    (atMost : base ≤ 16) :
    mpzAsStrInpl config.mpz z base prefixText baseChar comma =
      some ((if z.value config.mpz < 0 then ['-'.toNat] else []) ++ prefixText ++
        (groupCommas comma 0 ((digitsOf base (z.value config.mpz).natAbs).map
          (digitChar baseChar))).reverse) := by
  by_cases none : z.dig = []
  · have isZero := (MpzT.value_eq_zero_iff wellFormed).mpr none
    have single : groupCommas comma 0 ['0'.toNat] = ['0'.toNat] := by simp [groupCommas]
    rw [mpzAsStrInpl, if_pos none, isZero, Int.natAbs_zero, digitsOf, if_pos rfl]
    have isChar : [0].map (digitChar baseChar) = ['0'.toNat] := rfl
    rw [isChar, single]
    simp
  · have positive : 0 < Nat.ofDigits config.mpz.digBase z.dig :=
      Nat.pos_of_ne_zero fun isZero =>
        none ((wellFormed.normal.eq_nil_iff config.mpz.one_lt_digBase).mpr isZero)
    have isAbs : (z.value config.mpz).natAbs = Nat.ofDigits config.mpz.digBase z.dig := by
      rw [MpzT.value]
      split_ifs <;> simp
    have sign : z.value config.mpz < 0 ↔ z.neg = true := by
      rw [MpzT.value]
      cases z.neg <;> simp
      omega
    have fits := wellFormed.digits.lt_pow config.mpz.one_lt_digBase
    rw [MpzConfig.digBase, ← Nat.pow_mul, Nat.mul_comm, ← MpzConfig.digBase] at fits
    have loop := @asStrLoop_spec config.mpz base baseChar comma z.dig.reverse
      (z.dig.length * config.mpz.digSize) 0 [] atLeast (atMost.trans config.mpz.digBase_large)
      (areDigits_reverse.mpr wellFormed.digits) (by rwa [reverse_reverse])
      (by rwa [reverse_reverse]) (Nat.le_refl 0)
    rw [reverse_reverse] at loop
    rw [mpzAsStrInpl, if_neg none, loop, isAbs, digitsOf, if_neg positive.ne', if_congr sign rfl rfl]
    cases z.neg <;> simp

/-- Both formatters write the text of the integer; the one for small ints is used for small ints. -/
structure FormatsAlike (config : NumConfig) (z : MpzT) (base : Nat) (prefixText : List Nat)
    (baseChar comma : Nat) : Prop where
  big : mpzAsStrInpl config.mpz z base prefixText baseChar comma =
    some (integerText (z.value config.mpz) base prefixText baseChar comma)
  small : config.SmallIntFits (z.value config.mpz) →
    config.mpObjIntFormatted (z.value config.mpz) base prefixText baseChar comma =
      some (integerText (z.value config.mpz) base prefixText baseChar comma)

/-- The formatters agree unless there are commas and the number of digits is a multiple of three. -/
theorem formatsAlike_iff {z : MpzT} (wellFormed : WellFormed config.mpz z) (atLeast : 2 ≤ base)
    (atMost : base ≤ 16) :
    FormatsAlike config z base prefixText baseChar comma ↔
      ¬(comma ≠ 0 ∧ (digitsOf base (z.value config.mpz).natAbs).length % 3 = 0) := by
  have written := @mpzAsStrInpl_eq config base baseChar comma prefixText z wellFormed atLeast atMost
  have small := fun fits : config.SmallIntFits (z.value config.mpz) =>
    @mpObjIntFormatted_eq config base baseChar comma prefixText _ fits atLeast atMost
  have same : FormatsAlike config z base prefixText baseChar comma ↔
      groupCommas comma 0 ((digitsOf base (z.value config.mpz).natAbs).map (digitChar baseChar)) =
        grouped comma ((digitsOf base (z.value config.mpz).natAbs).map (digitChar baseChar)) := by
    refine ⟨fun alike => ?_, fun same => ⟨?_, small⟩⟩
    · have both := alike.big
      rw [written, integerText, some.injEq, append_cancel_left_eq] at both
      exact reverse_injective both
    · rw [written, same, integerText]
  rw [same]
  have someDigits : (digitsOf base (z.value config.mpz).natAbs).map (digitChar baseChar) ≠ [] := by
    rw [Ne, map_eq_nil_iff]
    exact digitsOf_ne_nil _ _
  by_cases isComma : comma = 0
  · rw [isComma, groupCommas_zero, grouped, if_pos rfl]
    simp
  · rw [groupCommas_eq isComma (by omega), groupBetween_eq_grouped, Nat.zero_add, length_map]
    simp only [someDigits, ne_eq, not_false_eq_true, true_and, append_right_eq_self, isComma]
    split_ifs with third <;> simp [third]

end Formatters

/-- Seven digits. -/
theorem formatsAlike_seven_digits :
    mpzAsStrInpl NumConfig.word64.mpz ⟨true, [1234567]⟩ 10 [] 0 ','.toNat =
        some ("-1,234,567".toList.map Char.toNat) ∧
      FormatsAlike NumConfig.word64 ⟨true, [1234567]⟩ 10 [] 0 ','.toNat := by
  have wellFormed : WellFormed NumConfig.word64.mpz ⟨true, [1234567]⟩ := by
    refine ⟨?_, (@normal_concat [] _).mpr (by decide)⟩
    rw [areDigits_cons]
    exact ⟨by decide, areDigits_nil⟩
  exact ⟨by decide,
    (formatsAlike_iff wellFormed (by decide) (by decide)).mpr (by decide)⟩

/-- Six digits: a big integer has a comma in front of all of them. -/
theorem big_formats_leading_comma :
    mpzAsStrInpl NumConfig.word64.mpz ⟨false, [123456]⟩ 10 [] 0 ','.toNat =
        some (",123,456".toList.map Char.toNat) ∧
      NumConfig.word64.mpObjIntFormatted 123456 10 [] 0 ','.toNat =
        some ("123,456".toList.map Char.toNat) ∧
      ¬ FormatsAlike NumConfig.word64 ⟨false, [123456]⟩ 10 [] 0 ','.toNat := by
  refine ⟨by decide, by decide, fun alike => ?_⟩
  exact absurd alike.big (by decide)

end MultiPython.Num
