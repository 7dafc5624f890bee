import MultiPython.Mpz.Mpz

/-!
# Big integers as text

`mpz_set_from_str` and `mpz_as_str_inpl` of `py/mpz.c`, and the size that `mp_int_format_size` of
`py/objint.c` reserves for the text. A character is its code, and a text is the characters before
the null byte.
-/

namespace MultiPython.Mpz

open Logic List Option

variable (config : MpzConfig)

/-! ## Reading -/

/-- The value of a character as a digit. -/
def digitValue (v : Nat) : Option Nat :=
  if '0'.toNat ≤ v ∧ v ≤ '9'.toNat then some (v - '0'.toNat)
  else if 'A'.toNat ≤ v ∧ v ≤ 'Z'.toNat then some (v - ('A'.toNat - 10))
  else if 'a'.toNat ≤ v ∧ v ≤ 'z'.toNat then some (v - ('a'.toNat - 10))
  else none

/-- The loop of `mpz_set_from_str`: the digits, and the number of characters that were read. -/
def setFromStrLoop (base : Nat) : List Nat → List Nat → List Nat × Nat
  | [], dig => (dig, 0)
  | v :: cur, dig =>
    match digitValue v with
    | none => (dig, 0)
    | some v =>
      if base ≤ v then (dig, 0)
      else
        let read := setFromStrLoop base cur (mpnMulDigAddDig config base v dig)
        (read.1, read.2 + 1)

def mpzSetFromStr (str : List Nat) (neg : Bool) (base : Nat) : MpzT × Nat :=
  let read := setFromStrLoop config base str []
  (⟨neg, read.1⟩, read.2)

/-- The number of digits that `mpz_set_from_str` makes room for. -/
def setFromStrNeedDig (len : Nat) : Nat := len * 8 / config.digSize + 1

/-! ## Writing -/

/-- Divide the digits by `base`, from the high end: the quotients and the last remainder. -/
def divDigits (base a : Nat) : List Nat → List Nat × Nat
  | [] => ([], a)
  | d :: dig =>
    let a := config.dbl ((a <<< config.digSize) ||| d)
    let rest := divDigits base (a % base) dig
    (config.store (a / base) :: rest.1, rest.2)

/-- Convert a remainder to a character. -/
def digitChar (baseChar a : Nat) : Nat :=
  let a := a + '0'.toNat
  if '9'.toNat < a then (a + baseChar - ('9'.toNat + 1)) % 256 else a

/-- The loop of `mpz_as_str_inpl`, with the digits from the high end. -/
def asStrLoop (base baseChar comma : Nat) : Nat → List Nat → List Nat → Nat → Option (List Nat)
  | 0, _, _, _ => none
  | fuel + 1, dig, s, lastComma =>
    let divided := divDigits config base 0 dig
    let s := s ++ [digitChar baseChar divided.2]
    let done := divided.1.all (· == 0)
    let group : List Nat × Nat :=
      if comma ≠ 0 ∧ s.length - lastComma = 3 then (s ++ [comma], s.length + 1)
      else (s, lastComma)
    if done then some group.1
    else asStrLoop base baseChar comma fuel divided.1 group.1 group.2

def mpzAsStrInpl (i : MpzT) (base : Nat) (prefixText : List Nat) (baseChar comma : Nat) :
    Option (List Nat) :=
  if i.dig = [] then some (prefixText ++ ['0'.toNat])
  else
    (asStrLoop config base baseChar comma (i.dig.length * config.digSize) i.dig.reverse [] 0).map
      fun s => (s ++ prefixText.reverse ++ if i.neg then ['-'.toNat] else []).reverse

def logBase2Floor : List Nat := [0, 1, 1, 2, 2, 2, 2, 3, 3, 3, 3, 3, 3, 3, 3, 4]

def mpIntFormatSize (numBits base : Nat) (prefixText : List Nat) (comma : Nat) : Nat :=
  let numDigits := numBits / logBase2Floor.getD (base - 1) 0 + 1
  let numCommas := if comma ≠ 0 then numDigits / 3 else 0
  numDigits + numCommas + prefixText.length + 2

def mpzMaxNumBits (z : MpzT) : Nat := z.dig.length * config.digSize

/-! ## What is read -/

/-- The characters that are digits in a base. -/
def isDigitIn (base v : Nat) : Bool := (digitValue v).any (· < base)

/-- The longest prefix of a text that has only digits of the base. -/
def digitPrefix (base : Nat) (str : List Nat) : List Nat := str.takeWhile (isDigitIn base)

/-- The value of a text of digits, the first one the highest. -/
def positionalValue (base : Nat) (str : List Nat) : Nat :=
  Nat.ofDigits base (str.filterMap digitValue).reverse

section Reading

variable {config} {base : Nat} {dig str : List Nat}

theorem digitPrefix_cons_of_valid {v digit : Nat} (isDigit : digitValue v = some digit)
    (below : digit < base) : digitPrefix base (v :: str) = v :: digitPrefix base str := by
  rw [digitPrefix, takeWhile_cons_of_pos (by simp [isDigitIn, isDigit, below])]
  rfl

theorem digitValue_of_mem {v : Nat} (member : v ∈ digitPrefix base str) :
    ∃ digit, digitValue v = some digit ∧ digit < base := by
  have valid := mem_takeWhile_imp member
  rw [isDigitIn, Option.any_eq_true] at valid
  obtain ⟨digit, isDigit, below⟩ := valid
  exact ⟨digit, isDigit, of_decide_eq_true below⟩

theorem length_filterMap_digitPrefix (base : Nat) (str : List Nat) :
    ((digitPrefix base str).filterMap digitValue).length = (digitPrefix base str).length := by
  rw [filterMap_length_eq_length]
  intro v member
  obtain ⟨digit, isDigit, -⟩ := digitValue_of_mem member
  rw [isDigit, isSome_some]

/-- Each character multiplies the value by the base and adds the digit. -/
theorem setFromStrLoop_spec (small : base ≤ config.digBase)
    (are : AreDigits config.digBase dig) (normal : Normal dig) :
    Nat.ofDigits config.digBase (setFromStrLoop config base str dig).1 =
        Nat.ofDigits config.digBase dig * base ^ (digitPrefix base str).length +
          positionalValue base (digitPrefix base str) ∧
      AreDigits config.digBase (setFromStrLoop config base str dig).1 ∧
      Normal (setFromStrLoop config base str dig).1 ∧
      (setFromStrLoop config base str dig).2 = (digitPrefix base str).length := by
  induction str generalizing dig with
  | nil => exact ⟨by simp [setFromStrLoop, digitPrefix, positionalValue], are, normal, rfl⟩
  | cons v str ih =>
    have stop : digitPrefix base (v :: str) = [] →
        setFromStrLoop config base (v :: str) dig = (dig, 0) →
        Nat.ofDigits config.digBase (setFromStrLoop config base (v :: str) dig).1 =
            Nat.ofDigits config.digBase dig * base ^ (digitPrefix base (v :: str)).length +
              positionalValue base (digitPrefix base (v :: str)) ∧
          AreDigits config.digBase (setFromStrLoop config base (v :: str) dig).1 ∧
          Normal (setFromStrLoop config base (v :: str) dig).1 ∧
          (setFromStrLoop config base (v :: str) dig).2 =
            (digitPrefix base (v :: str)).length := by
      intro none loop
      rw [none, loop]
      exact ⟨by simp [positionalValue], are, normal, rfl⟩
    cases isDigit : digitValue v with
    | none =>
      refine stop ?_ (by simp [setFromStrLoop, isDigit])
      rw [digitPrefix, takeWhile_cons_of_neg (by simp [isDigitIn, isDigit])]
    | some digit =>
      by_cases below : digit < base
      · have positive : 0 < base := Nat.zero_lt_of_lt below
        obtain ⟨value, digits, isNormal⟩ := @mpnMulDigAddDig_spec config dig digit base
          (below.trans_le small) are small positive normal
        obtain ⟨total, areDigits, areNormal, length⟩ := ih digits isNormal
        have step : setFromStrLoop config base (v :: str) dig =
            ((setFromStrLoop config base str (mpnMulDigAddDig config base digit dig)).1,
              (setFromStrLoop config base str
                (mpnMulDigAddDig config base digit dig)).2 + 1) := by
          simp [setFromStrLoop, isDigit, Nat.not_le.mpr below]
        rw [step, digitPrefix_cons_of_valid isDigit below]
        refine ⟨?_, areDigits, areNormal, by rw [length_cons, length]⟩
        have one := length_filterMap_digitPrefix base str
        rw [total, value, positionalValue, positionalValue, filterMap_cons_some isDigit,
          Nat.ofDigits_reverse_cons, length_cons, one, Nat.pow_succ]
        ring
      · refine stop ?_ (by simp [setFromStrLoop, isDigit, Nat.not_lt.mp below])
        rw [digitPrefix, takeWhile_cons_of_neg (by simp [isDigitIn, isDigit, below])]

/-- The digits that are read fit into the room that is made for them. -/
theorem setFromStr_length (small : base ≤ config.digBase) (limit : base ≤ 36) :
    (setFromStrLoop config base str []).1.length ≤ setFromStrNeedDig config str.length := by
  obtain ⟨value, are, normal, -⟩ := @setFromStrLoop_spec config base [] str small areDigits_nil
    normal_nil
  rw [Nat.ofDigits_nil, Nat.zero_mul, Nat.zero_add] at value
  generalize (setFromStrLoop config base str []).1 = dig at *
  by_cases empty : dig = []
  · rw [empty]
    exact Nat.zero_le _
  have digSizePositive : 0 < config.digSize := by
    have := config.atLeast
    omega
  have atLeast := @Logic.Normal.pow_le config.digBase _ normal empty
  have shorter : (digitPrefix base str).length ≤ str.length :=
    (takeWhile_sublist _).length_le
  have below : positionalValue base (digitPrefix base str) < 2 ^ (str.length * 8) := by
    by_cases trivial : base ≤ 1
    · have none : digitPrefix base str = [] ∨ base = 1 := by
        by_cases one : base = 1
        · exact .inr one
        · refine .inl (eq_nil_iff_forall_not_mem.mpr fun v member => ?_)
          obtain ⟨digit, -, small⟩ := digitValue_of_mem member
          omega
      have zero : positionalValue base (digitPrefix base str) = 0 := by
        rcases none with none | one
        · rw [none]
          rfl
        · rw [positionalValue, one, Nat.ofDigits_one, sum_reverse, sum_eq_zero]
          intro digit member
          obtain ⟨v, memberPrefix, isDigit⟩ := mem_filterMap.mp member
          obtain ⟨same, isSame, small⟩ := digitValue_of_mem memberPrefix
          rw [isDigit, some_inj] at isSame
          omega
      rw [zero]
      exact Nat.two_pow_pos _
    · have digits : ∀ digit ∈ ((digitPrefix base str).filterMap digitValue).reverse,
          digit < base := by
        intro digit member
        obtain ⟨v, memberPrefix, isDigit⟩ := mem_filterMap.mp (mem_reverse.mp member)
        obtain ⟨same, isSame, small⟩ := digitValue_of_mem memberPrefix
        rw [isDigit, some_inj] at isSame
        omega
      calc positionalValue base (digitPrefix base str)
          < base ^ ((digitPrefix base str).filterMap digitValue).reverse.length :=
            Nat.ofDigits_lt_base_pow_length (by omega) digits
        _ ≤ base ^ str.length := by
            rw [length_reverse, length_filterMap_digitPrefix]
            exact Nat.pow_le_pow_right (by omega) shorter
        _ ≤ (2 ^ 8) ^ str.length := Nat.pow_le_pow_left (by omega) _
        _ = 2 ^ (str.length * 8) := by rw [← Nat.pow_mul, Nat.mul_comm]
  have exponents : config.digSize * (dig.length - 1) < str.length * 8 := by
    rw [← Nat.pow_lt_pow_iff_right (by omega : 1 < 2), Nat.pow_mul, ← MpzConfig.digBase]
    omega
  have room : dig.length - 1 ≤ str.length * 8 / config.digSize := by
    rw [Nat.le_div_iff_mul_le digSizePositive, Nat.mul_comm]
    exact exponents.le
  rw [setFromStrNeedDig]
  omega

end Reading

/-! ## What is written -/

/-- The characters with a comma after each third one. -/
def groupCommas (comma count : Nat) : List Nat → List Nat
  | [] => []
  | c :: str =>
    if comma ≠ 0 ∧ count + 1 = 3 then c :: comma :: groupCommas comma 0 str
    else c :: groupCommas comma (count + 1) str

section Writing

variable {config} {base baseChar comma : Nat} {dig str : List Nat}

theorem filter_groupCommas {count : Nat} (free : comma ∉ str) :
    (groupCommas comma count str).filter (· != comma) = str := by
  induction str generalizing count with
  | nil => rfl
  | cons c str ih =>
    rw [mem_cons, not_or] at free
    have other : c ≠ comma := fun same => free.1 same.symm
    rw [groupCommas]
    split_ifs <;> simp [other, ih free.2]

theorem length_groupCommas {count : Nat} (few : count < 3) :
    (groupCommas comma count str).length ≤
      str.length + if comma ≠ 0 then (count + str.length) / 3 else 0 := by
  induction str generalizing count with
  | nil => exact Nat.zero_le _
  | cons c str ih =>
    rw [groupCommas]
    by_cases noComma : comma = 0
    · have rest := ih few
      simp only [noComma, ne_eq, not_true_eq_false, false_and, if_false, length_cons] at *
      have step : ∀ other, (groupCommas 0 other str).length = str.length := by
        intro other
        clear rest ih few
        induction str generalizing other with
        | nil => rfl
        | cons c str ih => simp [groupCommas, ih]
      rw [step]
    · by_cases third : count + 1 = 3
      · have rest := ih (by omega : 0 < 3)
        rw [if_pos noComma] at rest
        rw [if_pos ⟨noComma, third⟩, if_pos noComma]
        simp only [length_cons]
        omega
      · have rest := ih (by omega : count + 1 < 3)
        rw [if_pos noComma] at rest
        rw [if_neg fun group => third group.2, if_pos noComma]
        simp only [length_cons]
        omega

/-- One round of divisions divides the number by the base and leaves the remainder. -/
theorem divDigits_spec {a : Nat} (small : base ≤ config.digBase) (below : a < base)
    (are : AreDigits config.digBase dig) :
    Nat.ofDigits config.digBase (divDigits config base a dig).1.reverse =
        (a * config.digBase ^ dig.length + Nat.ofDigits config.digBase dig.reverse) / base ∧
      (divDigits config base a dig).2 =
        (a * config.digBase ^ dig.length + Nat.ofDigits config.digBase dig.reverse) % base ∧
      (divDigits config base a dig).1.length = dig.length ∧
      AreDigits config.digBase (divDigits config base a dig).1 := by
  induction dig generalizing a with
  | nil =>
    have none : a / base = 0 := Nat.div_eq_of_lt below
    have same : a % base = a := Nat.mod_eq_of_lt below
    exact ⟨by simp [divDigits, none], by simp [divDigits, same], rfl, areDigits_nil⟩
  | cons d dig ih =>
    rw [areDigits_cons] at are
    have positive : 0 < base := Nat.zero_lt_of_lt below
    have joined : a <<< config.digSize ||| d = a * config.digBase + d := by
      rw [MpzConfig.digBase, ← Nat.shiftLeft_eq]
      exact (Nat.shiftLeft_add_eq_or_of_lt are.1 a).symm
    have column : a * config.digBase + d < base * config.digBase := by
      calc a * config.digBase + d < (a + 1) * config.digBase := by
            rw [Nat.succ_mul]
            exact Nat.add_lt_add_left are.1 _
        _ ≤ base * config.digBase := Nat.mul_le_mul_right _ below
    have exact : config.dbl (a <<< config.digSize ||| d) = a * config.digBase + d := by
      rw [joined]
      exact config.dbl_of_lt (column.trans_le (Nat.mul_le_mul_right _ small))
    have digit : (a * config.digBase + d) / base < config.digBase :=
      Nat.div_lt_of_lt_mul column
    obtain ⟨quotient, remainder, length, digits⟩ :=
      ih (Nat.mod_lt (a * config.digBase + d) positive) are.2
    have split : a * config.digBase ^ (dig.length + 1) +
        Nat.ofDigits config.digBase (d :: dig).reverse =
        base * ((a * config.digBase + d) / base * config.digBase ^ dig.length) +
          ((a * config.digBase + d) % base * config.digBase ^ dig.length +
            Nat.ofDigits config.digBase dig.reverse) := by
      have whole := Nat.div_add_mod (a * config.digBase + d) base
      calc a * config.digBase ^ (dig.length + 1) +
            Nat.ofDigits config.digBase (d :: dig).reverse
          = (a * config.digBase + d) * config.digBase ^ dig.length +
              Nat.ofDigits config.digBase dig.reverse := by
            rw [Nat.ofDigits_reverse_cons]
            ring
        _ = (base * ((a * config.digBase + d) / base) + (a * config.digBase + d) % base) *
              config.digBase ^ dig.length + Nat.ofDigits config.digBase dig.reverse := by
            rw [whole]
        _ = _ := by ring
    rw [divDigits]
    simp only [exact, config.store_of_lt digit]
    refine ⟨?_, ?_, by rw [length_cons, length, length_cons],
      areDigits_cons.mpr ⟨digit, digits⟩⟩
    · rw [length_cons, split, Nat.mul_add_div positive, Nat.ofDigits_reverse_cons, length,
        quotient]
      ring
    · rw [length_cons, split, Nat.mul_add_mod, remainder]

/-- The loop writes the digits of the number in the base, the lowest first. -/
theorem asStrLoop_spec {fuel lastComma : Nat} {s : List Nat} (large : 2 ≤ base)
    (small : base ≤ config.digBase) (are : AreDigits config.digBase dig)
    (positive : 0 < Nat.ofDigits config.digBase dig.reverse)
    (enough : Nat.ofDigits config.digBase dig.reverse < 2 ^ fuel)
    (before : lastComma ≤ s.length) :
    asStrLoop config base baseChar comma fuel dig s lastComma =
      some (s ++ groupCommas comma (s.length - lastComma)
        ((Nat.digits base (Nat.ofDigits config.digBase dig.reverse)).map
          (digitChar baseChar))) := by
  induction fuel generalizing dig s lastComma with
  | zero => omega
  | succ fuel ih =>
    obtain ⟨quotient, remainder, -, digits⟩ :=
      divDigits_spec small (by omega : 0 < base) are
    rw [Nat.zero_mul, Nat.zero_add] at quotient remainder
    have lower : Nat.ofDigits config.digBase dig.reverse / base < 2 ^ fuel := by
      rw [Nat.pow_succ] at enough
      refine Nat.div_lt_of_lt_mul (enough.trans_le ?_)
      rw [Nat.mul_comm]
      exact Nat.mul_le_mul_right _ large
    have isDone : (divDigits config base 0 dig).1.all (· == 0) = true ↔
        Nat.ofDigits config.digBase dig.reverse / base = 0 := by
      rw [← quotient, List.all_eq_true]
      constructor
      · intro zero
        have zeros : (divDigits config base 0 dig).1.reverse =
            List.replicate (divDigits config base 0 dig).1.reverse.length 0 :=
          eq_replicate_of_mem fun digit member =>
            eq_of_beq (zero digit (mem_reverse.mp member))
        rw [zeros]
        exact Nat.ofDigits_replicate_zero
      · intro zero digit member
        exact beq_of_eq (Nat.digits_zero_of_eq_zero config.digBase_pos.ne' zero digit
          (mem_reverse.mpr member))
    rw [Nat.digits_def' (by omega) positive, map_cons, ← remainder, asStrLoop]
    generalize digitChar baseChar (divDigits config base 0 dig).2 = c
    have count : (s ++ [c]).length - lastComma = s.length - lastComma + 1 := by
      rw [length_append, length_singleton]
      omega
    rw [← quotient] at lower isDone ⊢
    rw [groupCommas, count]
    by_cases done : (divDigits config base 0 dig).1.all (· == 0) = true
    · rw [isDone.mp done, Nat.digits_zero]
      simp only [done, if_true]
      split_ifs <;> simp [groupCommas]
    · have rest : 0 < Nat.ofDigits config.digBase (divDigits config base 0 dig).1.reverse :=
        Nat.pos_of_ne_zero fun zero => done (isDone.mpr zero)
      simp only [done, if_false, Bool.false_eq_true]
      split_ifs with third
      · rw [ih digits rest lower (by simp)]
        simp
      · rw [ih digits rest lower (by simp; omega)]
        rw [count, append_assoc, singleton_append]

theorem digitValue_digitChar {digit : Nat} (limit : base ≤ 16) (below : digit < base)
    (letters : base ≤ 10 ∨ baseChar = 'a'.toNat ∨ baseChar = 'A'.toNat) :
    digitValue (digitChar baseChar digit) = some digit := by
  by_cases decimal : digit < 10
  · have isChar : digitChar baseChar digit = digit + 48 := by
      simp only [digitChar, Char.reduceToNat]
      rw [if_neg (by omega)]
    rw [isChar, digitValue, if_pos (by simp only [Char.reduceToNat]; omega)]
    simp
  · have isChar : digitChar baseChar digit = (digit + 48 + baseChar - 58) % 256 := by
      simp only [digitChar, Char.reduceToNat]
      rw [if_pos (by omega)]
    simp only [Char.reduceToNat] at letters
    simp only [isChar, digitValue, Char.reduceToNat]
    rcases letters with small | rfl | rfl
    · omega
    · rw [if_neg (by omega), if_neg (by omega), if_pos (by omega), some_inj]
      omega
    · rw [if_neg (by omega), if_pos (by omega), some_inj]
      omega

theorem read_digitChars {digits : List Nat} (limit : base ≤ 16)
    (letters : base ≤ 10 ∨ baseChar = 'a'.toNat ∨ baseChar = 'A'.toNat)
    (below : ∀ digit ∈ digits, digit < base) :
    digitPrefix base (digits.map (digitChar baseChar)).reverse =
        (digits.map (digitChar baseChar)).reverse ∧
      positionalValue base (digits.map (digitChar baseChar)).reverse =
        Nat.ofDigits base digits := by
  constructor
  · rw [digitPrefix, takeWhile_eq_self_iff]
    intro v member
    obtain ⟨digit, isMember, rfl⟩ := List.mem_map.mp (mem_reverse.mp member)
    rw [isDigitIn, digitValue_digitChar limit (below digit isMember) letters]
    simpa using below digit isMember
  · have values : (digits.map (digitChar baseChar)).filterMap digitValue = digits := by
      rw [filterMap_map]
      conv_rhs => rw [← filterMap_some (l := digits)]
      exact filterMap_congr fun digit member =>
        digitValue_digitChar limit (below digit member) letters
    rw [positionalValue, filterMap_reverse, reverse_reverse, values]

theorem pow_logBase2Floor_le (atLeast : 2 ≤ base) (atMost : base ≤ 16) :
    0 < logBase2Floor.getD (base - 1) 0 ∧ 2 ^ logBase2Floor.getD (base - 1) 0 ≤ base := by
  interval_cases base <;> decide

theorem length_digits_le {value numBits : Nat} (atLeast : 2 ≤ base) (atMost : base ≤ 16)
    (positive : 0 < value) (fits : value < 2 ^ numBits) :
    (Nat.digits base value).length ≤ numBits / logBase2Floor.getD (base - 1) 0 + 1 := by
  obtain ⟨logPositive, logBelow⟩ := pow_logBase2Floor_le atLeast atMost
  generalize logBase2Floor.getD (base - 1) 0 = log at *
  have nonempty : Nat.digits base value ≠ [] := Nat.digits_ne_nil_iff_ne_zero.mpr positive.ne'
  have normal : Normal (Nat.digits base value) := fun _ =>
    Nat.getLast_digit_ne_zero base positive.ne'
  have power := @Logic.Normal.pow_le base _ normal nonempty
  rw [Nat.ofDigits_digits] at power
  have exponents : log * ((Nat.digits base value).length - 1) < numBits := by
    rw [← Nat.pow_lt_pow_iff_right (by omega : 1 < 2), Nat.pow_mul]
    exact (Nat.pow_le_pow_left logBelow _).trans_lt (power.trans_lt fits)
  have room : (Nat.digits base value).length - 1 ≤ numBits / log := by
    rw [Nat.le_div_iff_mul_le logPositive, Nat.mul_comm]
    exact exponents.le
  omega

end Writing

/-! ## Round trip -/

/-- What `mpz_as_str_inpl` writes: the sign, the prefix and the digits, and how many of them. -/
theorem mpzAsStrInpl_spec {config : MpzConfig} {z : MpzT} {base baseChar comma : Nat}
    {prefixText : List Nat} (canonical : Canonical config z) (atLeast : 2 ≤ base)
    (atMost : base ≤ 16) :
    ∃ digits : List Nat,
      mpzAsStrInpl config z base prefixText baseChar comma =
        some ((if z.neg then ['-'.toNat] else []) ++ prefixText ++
          (groupCommas comma 0 (digits.map (digitChar baseChar))).reverse) ∧
      (∀ digit ∈ digits, digit < base) ∧
      Nat.ofDigits base digits = Nat.ofDigits config.digBase z.dig ∧
      digits.length ≤ mpzMaxNumBits config z / logBase2Floor.getD (base - 1) 0 + 1 := by
  by_cases zero : z.dig = []
  · have notNeg : z.neg = false := by
      by_contra neg
      exact canonical.sign (by simpa using neg) zero
    refine ⟨[0], ?_, by simp; omega, by simp [zero], by simp⟩
    have single : groupCommas comma 0 ['0'.toNat] = ['0'.toNat] := by simp [groupCommas]
    have isZero : digitChar baseChar 0 = '0'.toNat := by simp [digitChar]
    rw [mpzAsStrInpl, if_pos zero, notNeg, map_singleton, isZero, single]
    simp
  · have positive : 0 < Nat.ofDigits config.digBase z.dig :=
      Nat.pos_of_ne_zero fun none =>
        zero ((canonical.normal.eq_nil_iff config.one_lt_digBase).mpr none)
    have fits : Nat.ofDigits config.digBase z.dig < 2 ^ mpzMaxNumBits config z := by
      have small := canonical.digits.lt_pow config.one_lt_digBase
      rwa [MpzConfig.digBase, ← Nat.pow_mul, Nat.mul_comm, ← MpzConfig.digBase] at small
    refine ⟨Nat.digits base (Nat.ofDigits config.digBase z.dig), ?_,
      fun digit member => Nat.digits_lt_base atLeast member, Nat.ofDigits_digits _ _,
      length_digits_le atLeast atMost positive fits⟩
    have loop := @asStrLoop_spec config base baseChar comma z.dig.reverse (mpzMaxNumBits config z) 0
      [] atLeast (atMost.trans config.digBase_large) (areDigits_reverse.mpr canonical.digits)
      (by rwa [reverse_reverse]) (by rwa [reverse_reverse]) (Nat.zero_le _)
    rw [reverse_reverse] at loop
    rw [mpzAsStrInpl, if_neg zero, ← mpzMaxNumBits, loop]
    cases z.neg <;> simp

/-- Big integers survive being written and read back, any text is read as the positional value of
its longest prefix of digits, and nothing is written past the size that is reserved. -/
theorem text_round_trip (config : MpzConfig) :
    (∀ (z : MpzT) (base baseChar comma : Nat) (prefixText : List Nat), Canonical config z →
      2 ≤ base → base ≤ 16 → (base ≤ 10 ∨ baseChar = 'a'.toNat ∨ baseChar = 'A'.toNat) →
      digitValue comma = none →
      ∃ digits, mpzAsStrInpl config z base prefixText baseChar comma =
          some ((if z.neg then ['-'.toNat] else []) ++ prefixText ++ digits) ∧
        mpzSetFromStr config (digits.filter (· != comma)) z.neg base =
          (z, (digits.filter (· != comma)).length)) ∧
    (∀ (str : List Nat) (neg : Bool) (base : Nat), base ≤ 36 → base ≤ config.digBase →
      Nat.ofDigits config.digBase (mpzSetFromStr config str neg base).1.dig =
          positionalValue base (digitPrefix base str) ∧
        AreDigits config.digBase (mpzSetFromStr config str neg base).1.dig ∧
        Normal (mpzSetFromStr config str neg base).1.dig ∧
        (mpzSetFromStr config str neg base).1.neg = neg ∧
        (mpzSetFromStr config str neg base).2 = (digitPrefix base str).length ∧
        (mpzSetFromStr config str neg base).1.dig.length ≤
          setFromStrNeedDig config str.length) ∧
    (∀ (z : MpzT) (base baseChar comma : Nat) (prefixText : List Nat), Canonical config z →
      2 ≤ base → base ≤ 16 →
      ∃ text, mpzAsStrInpl config z base prefixText baseChar comma = some text ∧
        text.length + 1 ≤ mpIntFormatSize (mpzMaxNumBits config z) base prefixText comma) := by
  refine ⟨?_, ?_, ?_⟩
  · intro z base baseChar comma prefixText canonical atLeast atMost letters noDigit
    obtain ⟨digits, isText, below, value, -⟩ :=
      @mpzAsStrInpl_spec config z base baseChar comma prefixText canonical atLeast atMost
    refine ⟨_, isText, ?_⟩
    have free : comma ∉ digits.map (digitChar baseChar) := by
      intro member
      obtain ⟨digit, isMember, isComma⟩ := List.mem_map.mp member
      have isDigit := digitValue_digitChar atMost (below digit isMember) letters
      rw [isComma, noDigit] at isDigit
      exact absurd isDigit (by simp)
    obtain ⟨whole, positional⟩ := read_digitChars atMost letters below
    obtain ⟨total, are, normal, length⟩ := @setFromStrLoop_spec config base []
      (digits.map (digitChar baseChar)).reverse (atMost.trans config.digBase_large) areDigits_nil
      normal_nil
    rw [Nat.ofDigits_nil, Nat.zero_mul, Nat.zero_add, whole, positional, value] at total
    rw [whole] at length
    rw [filter_reverse, filter_groupCommas free, mpzSetFromStr]
    refine Prod.ext ?_ length
    have same := normal.ext config.one_lt_digBase are canonical.digits canonical.normal total
    simp only [same]
  · intro str neg base limit small
    obtain ⟨value, are, normal, length⟩ := @setFromStrLoop_spec config base [] str small
      areDigits_nil normal_nil
    rw [Nat.ofDigits_nil, Nat.zero_mul, Nat.zero_add] at value
    exact ⟨value, are, normal, rfl, length, setFromStr_length small limit⟩
  · intro z base baseChar comma prefixText canonical atLeast atMost
    obtain ⟨digits, isText, -, -, count⟩ :=
      @mpzAsStrInpl_spec config z base baseChar comma prefixText canonical atLeast atMost
    refine ⟨_, isText, ?_⟩
    have grouped := @length_groupCommas comma (digits.map (digitChar baseChar)) 0 (by omega)
    have sign : (if z.neg = true then ['-'.toNat] else []).length ≤ 1 := by
      split_ifs <;> simp
    rw [length_map, Nat.zero_add] at grouped
    rw [length_append, length_append, length_reverse, mpIntFormatSize]
    generalize mpzMaxNumBits config z / logBase2Floor.getD (base - 1) 0 = most at *
    generalize (if z.neg = true then ['-'.toNat] else []).length = signLength at *
    split_ifs at grouped ⊢ <;> omega

/-- The three parts for a negative number in base 16, and for a text that ends with another
character. -/
theorem text_round_trip_minus_255 :
    (∃ digits, mpzAsStrInpl ⟨16, false, by decide, by decide⟩ ⟨true, [255]⟩ 16 [48, 120] 97 44 =
        some (['-'.toNat] ++ [48, 120] ++ digits) ∧
      mpzSetFromStr ⟨16, false, by decide, by decide⟩ (digits.filter (· != 44)) true 16 =
        (⟨true, [255]⟩, (digits.filter (· != 44)).length)) ∧
    (mpzSetFromStr ⟨16, false, by decide, by decide⟩ [49, 102, 103] false 16).2 =
      (digitPrefix 16 [49, 102, 103]).length ∧
    ∃ text, mpzAsStrInpl ⟨16, false, by decide, by decide⟩ ⟨true, [255]⟩ 16 [48, 120] 97 44 =
        some text ∧
      text.length + 1 ≤ mpIntFormatSize (mpzMaxNumBits ⟨16, false, by decide, by decide⟩
        ⟨true, [255]⟩) 16 [48, 120] 44 := by
  have canonical : Canonical ⟨16, false, by decide, by decide⟩ ⟨true, [255]⟩ := by
    refine ⟨?_, ?_, by simp⟩
    · rw [areDigits_cons]
      exact ⟨by decide, areDigits_nil⟩
    · exact (@normal_concat [] _).mpr (by decide)
  obtain ⟨roundTrip, read, size⟩ := text_round_trip ⟨16, false, by decide, by decide⟩
  exact ⟨roundTrip _ 16 97 44 [48, 120] canonical (by decide) le_rfl (by decide) (by decide),
    (read [49, 102, 103] false 16 (by decide) (by decide)).2.2.2.2.1,
    size _ 16 97 44 [48, 120] canonical (by decide) le_rfl⟩

end MultiPython.Mpz
