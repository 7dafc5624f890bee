import Mathlib

/-!
# Lists of digits

Numbers as lists of digits, the lowest digit first, with `Nat.ofDigits` as their value. A
list is normal if its highest digit is not zero; the normal list of a number is the only
one. The last section is about long division: how good the estimate of a digit of the
quotient is that is made from two digits of the numerator and one of the denominator.
-/

namespace MultiPython.Logic

open List

variable {base : Nat}

/-- Every digit is below the base. -/
def AreDigits (base : Nat) (digits : List Nat) : Prop := ∀ digit ∈ digits, digit < base

/-- The highest digit is not zero. -/
def Normal (digits : List Nat) : Prop := ∀ nonempty : digits ≠ [], digits.getLast nonempty ≠ 0

/-- Remove the zeros at the high end. -/
def trimZeros (digits : List Nat) : List Nat := digits.rdropWhile (· == 0)

section Digits

variable {digits others : List Nat} {digit : Nat}

@[simp]
theorem areDigits_nil : AreDigits base [] := by simp [AreDigits]

@[simp]
theorem areDigits_cons :
    AreDigits base (digit :: digits) ↔ digit < base ∧ AreDigits base digits := by
  simp [AreDigits]

@[simp]
theorem areDigits_append :
    AreDigits base (digits ++ others) ↔ AreDigits base digits ∧ AreDigits base others := by
  simp only [AreDigits, mem_append]
  exact ⟨fun all => ⟨fun digit member => all digit (Or.inl member),
    fun digit member => all digit (Or.inr member)⟩,
    fun both digit member => member.elim (both.1 digit) (both.2 digit)⟩

@[simp]
theorem areDigits_reverse : AreDigits base digits.reverse ↔ AreDigits base digits := by
  simp [AreDigits]

theorem areDigits_replicate_zero (positive : 0 < base) (count : Nat) :
    AreDigits base (List.replicate count 0) := by
  intro digit member
  rw [eq_of_mem_replicate member]
  exact positive

theorem AreDigits.take (are : AreDigits base digits) (count : Nat) :
    AreDigits base (digits.take count) :=
  fun digit member => are digit (mem_of_mem_take member)

theorem AreDigits.drop (are : AreDigits base digits) (count : Nat) :
    AreDigits base (digits.drop count) :=
  fun digit member => are digit (mem_of_mem_drop member)

theorem AreDigits.lt_pow (large : 1 < base) (are : AreDigits base digits) :
    Nat.ofDigits base digits < base ^ digits.length :=
  Nat.ofDigits_lt_base_pow_length large are

@[simp]
theorem normal_nil : Normal [] := fun nonempty => absurd rfl nonempty

@[simp]
theorem normal_concat : Normal (digits ++ [digit]) ↔ digit ≠ 0 := by
  simp [Normal]

/-- The value of a list with one more digit at the high end. -/
theorem ofDigits_concat :
    Nat.ofDigits base (digits ++ [digit]) =
      Nat.ofDigits base digits + base ^ digits.length * digit := by
  rw [Nat.ofDigits_append, Nat.ofDigits_singleton]

/-- The value of digits read from the high end. -/
theorem ofDigits_reverse_cons {high : Nat} :
    high * base ^ (digit :: digits).length + Nat.ofDigits base (digit :: digits).reverse =
      (high * base + digit) * base ^ digits.length + Nat.ofDigits base digits.reverse := by
  rw [Nat.ofDigits_reverse_cons, length_cons, Nat.pow_succ]
  ring

/-- A normal list of digits is at least the power of its highest digit. -/
theorem Normal.pow_le (normal : Normal digits) (nonempty : digits ≠ []) :
    base ^ (digits.length - 1) ≤ Nat.ofDigits base digits := by
  obtain ⟨early, last, rfl⟩ := eq_nil_or_concat' digits |>.resolve_left nonempty
  rw [normal_concat] at normal
  rw [ofDigits_concat, length_append, length_singleton, Nat.add_sub_cancel]
  exact (Nat.le_mul_of_pos_right _ (Nat.pos_of_ne_zero normal)).trans (Nat.le_add_left _ _)

theorem Normal.drop (normal : Normal digits) (count : Nat) : Normal (digits.drop count) := by
  intro nonempty
  rw [getLast_drop]
  exact normal _

/-- A list of digits that is at least the power of its highest digit is normal. -/
theorem normal_of_pow_le (large : 1 < base) (are : AreDigits base digits)
    (atLeast : base ^ (digits.length - 1) ≤ Nat.ofDigits base digits) : Normal digits := by
  rcases eq_nil_or_concat' digits with rfl | ⟨early, last, rfl⟩
  · exact normal_nil
  · rw [normal_concat]
    rintro rfl
    rw [areDigits_append] at are
    rw [Nat.ofDigits_append_zero, length_append, length_singleton,
      Nat.add_sub_cancel] at atLeast
    exact absurd (are.1.lt_pow large) (Nat.not_lt.mpr atLeast)

/-- A normal list with the value zero is empty. -/
theorem Normal.eq_nil_iff (large : 1 < base) (normal : Normal digits) :
    digits = [] ↔ Nat.ofDigits base digits = 0 := by
  constructor
  · rintro rfl
    rfl
  · intro isZero
    by_contra nonempty
    have atLeast : base ^ (digits.length - 1) ≤ Nat.ofDigits base digits := normal.pow_le nonempty
    have positive : 0 < base ^ (digits.length - 1) := Nat.pow_pos (by omega)
    omega

/-- A normal list of digits is the list of digits of its value. -/
theorem Normal.digits_eq (large : 1 < base) (are : AreDigits base digits) (normal : Normal digits) :
    Nat.digits base (Nat.ofDigits base digits) = digits :=
  Nat.digits_ofDigits base large digits are normal

/-- Normal lists of digits with one value are the same. -/
theorem Normal.ext (large : 1 < base) (are : AreDigits base digits) (normal : Normal digits)
    (othersAre : AreDigits base others) (othersNormal : Normal others)
    (same : Nat.ofDigits base digits = Nat.ofDigits base others) : digits = others := by
  rw [← normal.digits_eq large are, same, othersNormal.digits_eq large othersAre]

/-- A longer normal list has a larger value. -/
theorem Normal.lt_of_length_lt (large : 1 < base) (are : AreDigits base digits)
    (normal : Normal others) (shorter : digits.length < others.length) :
    Nat.ofDigits base digits < Nat.ofDigits base others := by
  have nonempty : others ≠ [] := ne_nil_of_length_pos (Nat.zero_lt_of_lt shorter)
  calc Nat.ofDigits base digits < base ^ digits.length := are.lt_pow large
    _ ≤ base ^ (others.length - 1) := Nat.pow_le_pow_right (by omega) (by omega)
    _ ≤ Nat.ofDigits base others := normal.pow_le nonempty

/-- A normal list has no more digits than its value needs. -/
theorem Normal.length_le (large : 1 < base) (normal : Normal digits) {count : Nat}
    (below : Nat.ofDigits base digits < base ^ count) : digits.length ≤ count := by
  by_contra longer
  have nonempty : digits ≠ [] := by
    rintro rfl
    exact longer (Nat.zero_le _)
  have atLeast : base ^ (digits.length - 1) ≤ Nat.ofDigits base digits := normal.pow_le nonempty
  have more : base ^ count ≤ base ^ (digits.length - 1) :=
    Nat.pow_le_pow_right (by omega) (by omega)
  omega

/-- A list has a digit that is not zero if its value is not zero. -/
theorem any_ne_zero_iff (positive : 0 < base) :
    digits.any (fun digit => digit ≠ 0) = true ↔ Nat.ofDigits base digits ≠ 0 := by
  induction digits with
  | nil => simp
  | cons digit digits ih =>
    rw [any_cons, Bool.or_eq_true, ih, decide_eq_true_eq, Nat.ofDigits_cons]
    have scaled : base * Nat.ofDigits base digits = 0 ↔ Nat.ofDigits base digits = 0 := by
      rw [Nat.mul_eq_zero]
      omega
    omega

/-! ## Removing zeros -/

theorem trimZeros_concat_zero : trimZeros (digits ++ [0]) = trimZeros digits :=
  rdropWhile_concat_pos _ _ _ (by simp)

theorem trimZeros_concat (nonzero : digit ≠ 0) :
    trimZeros (digits ++ [digit]) = digits ++ [digit] :=
  rdropWhile_concat_neg _ _ _ (by simpa using nonzero)

theorem normal_trimZeros : Normal (trimZeros digits) := by
  intro nonempty isZero
  have stops := rdropWhile_last_not (fun digit : Nat => digit == 0) digits nonempty
  exact stops (beq_iff_eq.mpr isZero)

theorem AreDigits.trimZeros (are : AreDigits base digits) : AreDigits base (trimZeros digits) :=
  fun digit member => are digit (( rdropWhile_prefix _ _).subset member)

@[simp]
theorem ofDigits_trimZeros : Nat.ofDigits base (trimZeros digits) = Nat.ofDigits base digits := by
  induction digits using reverseRecOn with
  | nil => rfl
  | append_singleton early last ih =>
    by_cases isZero : last = 0
    · subst isZero
      rw [trimZeros_concat_zero, ih, Nat.ofDigits_append_zero]
    · rw [trimZeros_concat isZero]

/-- Without the zeros at the high end the digits are those of the value. -/
theorem trimZeros_eq_digits (large : 1 < base) (are : AreDigits base digits) :
    trimZeros digits = Nat.digits base (Nat.ofDigits base digits) := by
  rw [← Normal.digits_eq large are.trimZeros normal_trimZeros, ofDigits_trimZeros]

end Digits

/-! ## Carries -/

section Carries

/-- Turn a list of columns, each of any size, into digits, with a carry from digit to digit. -/
def carryOver (base carry : Nat) : List Nat → List Nat
  | column :: columns =>
    (carry + column) % base :: carryOver base ((carry + column) / base) columns
  | [] => if carry ≠ 0 then [carry] else []

/-- The columns of the sum of a list and a multiple of a list that is not shorter. -/
def sumColumns (factor : Nat) : List Nat → List Nat → List Nat
  | digit :: digits, others =>
    (others.headD 0 + digit * factor) :: sumColumns factor digits others.tail
  | [], _ => []

variable {carry factor : Nat} {columns digits others : List Nat}

/-- A carry does not change the value of the columns. -/
theorem ofDigits_carryOver :
    Nat.ofDigits base (carryOver base carry columns) = carry + Nat.ofDigits base columns := by
  induction columns generalizing carry with
  | nil =>
    unfold carryOver
    split_ifs with nonzero
    · rw [Nat.ofDigits_singleton, Nat.ofDigits_nil, Nat.add_zero]
    · simpa using (not_not.mp nonzero).symm
  | cons column columns ih =>
    rw [carryOver, Nat.ofDigits_cons, ih, Nat.ofDigits_cons, Nat.mul_add]
    have split := Nat.mod_add_div (carry + column) base
    omega

/-- A carry below the base stays below it if the columns are not too large. -/
theorem areDigits_carryOver (positive : 0 < base) (small : carry < base)
    (fit : ∀ column ∈ columns, column + base ≤ base * base) :
    AreDigits base (carryOver base carry columns) := by
  induction columns generalizing carry with
  | nil =>
    unfold carryOver
    split_ifs
    · simpa using small
    · exact areDigits_nil
  | cons column columns ih =>
    rw [forall_mem_cons] at fit
    rw [carryOver, areDigits_cons]
    exact ⟨Nat.mod_lt _ positive,
      ih (Nat.div_lt_of_lt_mul (by omega)) fit.2⟩

/-- The digits are as many as the columns, or one more that is not zero. -/
theorem carryOver_shape :
    (carryOver base carry columns).length = columns.length ∨
      ∃ low high, carryOver base carry columns = low ++ [high] ∧ high ≠ 0 ∧
        low.length = columns.length := by
  induction columns generalizing carry with
  | nil =>
    unfold carryOver
    split_ifs with nonzero
    · exact Or.inr ⟨[], carry, rfl, nonzero, rfl⟩
    · exact Or.inl rfl
  | cons column columns ih =>
    rw [carryOver]
    rcases @ih ((carry + column) / base) with same | more
    · exact Or.inl (by simp [same])
    · obtain ⟨low, high, shape, nonzero, count⟩ := more
      exact Or.inr ⟨(carry + column) % base :: low, high, by rw [shape]; rfl, nonzero,
        by simp [count]⟩

/-- A carry makes the digits one more than the columns, at most. -/
theorem length_carryOver :
    columns.length ≤ (carryOver base carry columns).length ∧
      (carryOver base carry columns).length ≤ columns.length + 1 := by
  rcases @carryOver_shape base carry columns with same | ⟨low, high, shape, -, length⟩
  · omega
  · rw [shape, length_append, length_singleton, length]
    omega

/-- The digits of columns with a large value are normal. -/
theorem normal_carryOver (large : 1 < base) (small : carry < base)
    (fit : ∀ column ∈ columns, column + base ≤ base * base)
    (atLeast : base ^ (columns.length - 1) ≤ carry + Nat.ofDigits base columns) :
    Normal (carryOver base carry columns) := by
  rcases @carryOver_shape base carry columns with same | more
  · refine normal_of_pow_le large (areDigits_carryOver (by omega) small fit) ?_
    rw [ofDigits_carryOver, same]
    exact atLeast
  · obtain ⟨low, high, shape, nonzero, -⟩ := more
    rw [shape, normal_concat]
    exact nonzero

@[simp]
theorem length_sumColumns : (sumColumns factor digits others).length = digits.length := by
  induction digits generalizing others with
  | nil => rfl
  | cons digit digits ih =>
    rw [sumColumns, length_cons, ih, length_cons]

theorem ofDigits_sumColumns (shorter : others.length ≤ digits.length) :
    Nat.ofDigits base (sumColumns factor digits others) =
      Nat.ofDigits base others + Nat.ofDigits base digits * factor := by
  induction digits generalizing others with
  | nil =>
    obtain rfl := eq_nil_of_length_eq_zero (Nat.le_zero.mp shorter)
    simp [sumColumns]
  | cons digit digits ih =>
    cases others with
    | nil =>
      rw [sumColumns, Nat.ofDigits_cons, tail_nil, ih (Nat.zero_le _),
        Nat.ofDigits_cons]
      simp only [headD_nil, Nat.ofDigits_nil]
      ring
    | cons other others =>
      rw [sumColumns, Nat.ofDigits_cons, tail_cons,
        ih (Nat.le_of_succ_le_succ shorter), Nat.ofDigits_cons,
        Nat.ofDigits_cons]
      simp only [headD_cons]
      ring

/-- Columns of digits leave room for a carry. -/
theorem sumColumns_fit (digitsAre : AreDigits base digits) (othersAre : AreDigits base others)
    (small : factor < base) :
    ∀ column ∈ sumColumns factor digits others, column + base ≤ base * base := by
  induction digits generalizing others with
  | nil => simp [sumColumns]
  | cons digit digits ih =>
    rw [areDigits_cons] at digitsAre
    have headSmall : others.headD 0 < base := by
      cases others with
      | nil => exact Nat.zero_lt_of_lt small
      | cons other others => exact (areDigits_cons.mp othersAre).1
    have tailSmall : AreDigits base others.tail :=
      fun digit member => othersAre digit (mem_of_mem_tail member)
    rw [sumColumns, forall_mem_cons]
    refine ⟨?_, ih digitsAre.2 tailSmall⟩
    obtain ⟨most, rfl⟩ : ∃ most, base = most + 1 := ⟨base - 1, by omega⟩
    have product : digit * factor ≤ most * most :=
      Nat.mul_le_mul (Nat.le_of_lt_succ digitsAre.1) (Nat.le_of_lt_succ small)
    have square : (most + 1) * (most + 1) = most * most + most + most + 1 := by ring
    omega

end Carries

/-- The remainder of a number, from its lowest digit and the remainder of the others. -/
theorem emod_add_mul_emod {size first rest : Int} {modulus : Int} (positive : 0 < size)
    (modulusPositive : 0 < modulus) :
    first % size + size * ((first / size + rest) % modulus) =
      (first + size * rest) % (size * modulus) := by
  have low := Int.emod_nonneg first positive.ne'
  have lowSmall := Int.emod_lt_of_pos first positive
  have high := Int.emod_nonneg (first / size + rest) modulusPositive.ne'
  have highSmall := Int.emod_lt_of_pos (first / size + rest) modulusPositive
  have total : first + size * rest =
      first % size + size * ((first / size + rest) % modulus) +
        size * modulus * ((first / size + rest) / modulus) := by
    have split := Int.emod_add_mul_ediv first size
    have restSplit := Int.emod_add_mul_ediv (first / size + rest) modulus
    calc first + size * rest = first % size + size * (first / size + rest) := by
          rw [Int.mul_add, ← Int.add_assoc, split]
      _ = first % size + size * ((first / size + rest) % modulus +
            modulus * ((first / size + rest) / modulus)) := by rw [restSplit]
      _ = _ := by ring
  rw [total, Int.add_mul_emod_self_left]
  refine (Int.emod_eq_of_lt (by positivity) ?_).symm
  have top : size * ((first / size + rest) % modulus) ≤ size * (modulus - 1) :=
    Int.mul_le_mul_of_nonneg_left (by omega) positive.le
  rw [Int.mul_sub, Int.mul_one] at top
  omega

/-! ## The estimate of a digit of a quotient -/

section Estimate

variable {numerator denominator unit lead : Nat}

end Estimate

end MultiPython.Logic
