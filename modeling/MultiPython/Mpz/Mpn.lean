import MultiPython.Logic.Digits

/-!
# Digit arrays

The `mpn` functions of `py/mpz.c`: non-negative integers as arrays of digits, the lowest digit
first. A digit is `digSize` bits wide, and is stored in an `mpz_dig_t`; intermediate results are
`mpz_dbl_dig_t`, at least twice as wide as a digit. Each function here computes in these types,
and its lemmas say what it returns for digits that are below the base.
-/

namespace MultiPython.Mpz

open Logic List

/-- The compile time options of `mpz.h`. -/
structure MpzConfig where
  /-- `MPZ_DIG_SIZE`. -/
  digSize : Nat
  /-- `MICROPY_OPT_MPZ_BITWISE`. -/
  optBitwise : Bool
  atLeast : 4 ≤ digSize
  atMost : digSize ≤ 32

namespace MpzConfig

variable (config : MpzConfig)

def digBase : Nat := 2 ^ config.digSize

/-- `MPZ_DBL_DIG_SIZE`. -/
def dblDigSize : Nat :=
  if 16 < config.digSize then 64
  else if 8 < config.digSize then 32
  else if 4 < config.digSize then 16
  else 8

/-- The number of values of `mpz_dbl_dig_t`. -/
def dblBase : Nat := 2 ^ config.dblDigSize

/-- The number of values of `mpz_dig_t`. -/
def digValues : Nat :=
  if 16 < config.digSize then 2 ^ 32
  else if 8 < config.digSize then 2 ^ 16
  else 2 ^ 8

/-- Assign a value to an `mpz_dig_t`. -/
def store (value : Nat) : Nat := value % config.digValues

/-- Assign a value to an `mpz_dbl_dig_t`. -/
def dbl (value : Nat) : Nat := value % config.dblBase

theorem digBase_large : 16 ≤ config.digBase :=
  Nat.pow_le_pow_right (by omega : 0 < 2) config.atLeast

theorem one_lt_digBase : 1 < config.digBase := by
  have := config.digBase_large
  omega

theorem digBase_pos : 0 < config.digBase := by
  have := config.digBase_large
  omega

theorem two_mul_digSize_le : 2 * config.digSize ≤ config.dblDigSize := by
  have := config.atMost
  unfold dblDigSize
  split_ifs <;> omega

theorem digBase_mul_self_le : config.digBase * config.digBase ≤ config.dblBase := by
  rw [digBase, dblBase, ← Nat.pow_add, ← Nat.two_mul]
  exact Nat.pow_le_pow_right (by omega) config.two_mul_digSize_le

theorem digBase_le_digValues : config.digBase ≤ config.digValues := by
  have := config.atMost
  unfold digBase digValues
  split_ifs <;> exact Nat.pow_le_pow_right (by omega) (by omega)

theorem store_of_lt {value : Nat} (small : value < config.digBase) : config.store value = value :=
  Nat.mod_eq_of_lt (small.trans_le config.digBase_le_digValues)

theorem dbl_of_lt {value : Nat} (small : value < config.digBase * config.digBase) :
    config.dbl value = value :=
  Nat.mod_eq_of_lt (small.trans_le config.digBase_mul_self_le)

/-- Digits of 16 bits, which `mpz.h` chooses on a machine of 32 bits. -/
def digits16 : MpzConfig := ⟨16, true, by decide, by decide⟩

/-- Digits of 32 bits, which `mpz.h` chooses on a machine of 64 bits. -/
def digits32 : MpzConfig := ⟨32, true, by decide, by decide⟩

end MpzConfig

variable (config : MpzConfig)

/-! ## Comparison -/

/-- The loop of `mpn_cmp`, on the digits from the high end. -/
def mpnCmpFrom : List Nat → List Nat → Ordering
  | idig :: idigs, jdig :: jdigs =>
    if idig < jdig then .lt
    else if jdig < idig then .gt
    else mpnCmpFrom idigs jdigs
  | _, _ => .eq

def mpnCmp (idig jdig : List Nat) : Ordering :=
  if idig.length < jdig.length then .lt
  else if jdig.length < idig.length then .gt
  else mpnCmpFrom idig.reverse jdig.reverse

/-! ## Shifts -/

/-- The loop of `mpn_shl`, on the digits from the high end. -/
def mpnShlFrom (nPart d : Nat) : List Nat → List Nat
  | [] => [(d >>> (config.digSize - nPart)) % config.digBase]
  | jdig :: jdigs =>
    ((d ||| jdig) >>> (config.digSize - nPart)) % config.digBase ::
      mpnShlFrom nPart (config.dbl ((d ||| jdig) <<< config.digSize)) jdigs

def mpnShl (jdig : List Nat) (n : Nat) : List Nat :=
  let nWhole := (n + config.digSize - 1) / config.digSize
  let nPart := if n % config.digSize = 0 then config.digSize else n % config.digSize
  trimZeros (List.replicate (nWhole - 1) 0 ++ (mpnShlFrom config nPart 0 jdig.reverse).reverse)

/-- The loop of `mpn_shr`. -/
def mpnShrFrom (nPart : Nat) : List Nat → List Nat
  | [] => []
  | [jdig] => [(jdig >>> nPart) % config.digBase]
  | jdig :: next :: jdigs =>
    ((jdig ||| next <<< config.digSize) >>> nPart) % config.digBase ::
      mpnShrFrom nPart (next :: jdigs)

def mpnShr (jdig : List Nat) (n : Nat) : List Nat :=
  let nWhole := n / config.digSize
  let nPart := n % config.digSize
  if jdig.length ≤ nWhole then []
  else
    let idig := mpnShrFrom config nPart (jdig.drop nWhole)
    if idig.getLast? = some 0 then idig.dropLast else idig

/-! ## Sums and differences -/

/-- The loops of `mpn_add`. -/
def mpnAddFrom (carry : Nat) : List Nat → List Nat → List Nat
  | jdig :: jdigs, kdig :: kdigs =>
    let carry := config.dbl (carry + (jdig + kdig))
    carry % config.digBase :: mpnAddFrom (carry / config.digBase) jdigs kdigs
  | jdig :: jdigs, [] =>
    let carry := config.dbl (carry + jdig)
    carry % config.digBase :: mpnAddFrom (carry / config.digBase) jdigs []
  | [], _ => if carry ≠ 0 then [config.store carry] else []

/-- `mpn_add`, for a first argument that is not shorter. -/
def mpnAdd (jdig kdig : List Nat) : List Nat := mpnAddFrom config 0 jdig kdig

/-- The loops of `mpn_sub`, with `borrow` in an `mpz_dbl_dig_signed_t`. -/
def mpnSubFrom (borrow : Int) : List Nat → List Nat → List Nat
  | jdig :: jdigs, kdig :: kdigs =>
    let borrow := (borrow + ((jdig : Int) - kdig)).bmod config.dblBase
    (borrow % config.digBase).toNat :: mpnSubFrom (borrow / config.digBase) jdigs kdigs
  | jdig :: jdigs, [] =>
    let borrow := (borrow + jdig).bmod config.dblBase
    (borrow % config.digBase).toNat :: mpnSubFrom (borrow / config.digBase) jdigs []
  | [], _ => []

/-- `mpn_sub`, for a first argument that is not smaller. -/
def mpnSub (jdig kdig : List Nat) : List Nat := trimZeros (mpnSubFrom config 0 jdig kdig)

/-! ## Products -/

/-- `mpn_mul_dig_add_dig`, with the carry that the loop has reached. -/
def mpnMulDigAddDig (dmul carry : Nat) : List Nat → List Nat
  | idig :: idigs =>
    let carry := config.dbl (carry + idig * dmul)
    carry % config.digBase :: mpnMulDigAddDig dmul (carry / config.digBase) idigs
  | [] => if carry ≠ 0 then [config.store carry] else []

/-- The inner loop of `mpn_mul`: add the product of a digit to the digits that are there. -/
def mpnMulRow (kdig carry : Nat) : List Nat → List Nat → List Nat
  | jdig :: jdigs, idigs =>
    let carry := config.dbl (carry + (idigs.headD 0 + jdig * kdig))
    carry % config.digBase :: mpnMulRow kdig (carry / config.digBase) jdigs idigs.tail
  | [], _ => if carry ≠ 0 then [config.store carry] else []

/-- The outer loop of `mpn_mul`, with the digits that the earlier rows have left. -/
def mpnMulFrom (jdig idig : List Nat) : List Nat → List Nat
  | kdig :: kdigs =>
    let row := mpnMulRow config kdig 0 jdig idig
    row.take 1 ++ mpnMulFrom jdig row.tail kdigs
  | [] => idig

def mpnMul (jdig kdig : List Nat) : List Nat := mpnMulFrom config jdig [] kdig

/-! ## What the functions return -/

section Values

variable {config} {idig jdig kdig : List Nat} {carry dmul : Nat}

theorem MpzConfig.dbl_carry {column : Nat} (small : carry < config.digBase)
    (fit : column + config.digBase ≤ config.digBase * config.digBase) :
    config.dbl (carry + column) = carry + column ∧
      (carry + column) / config.digBase < config.digBase :=
  ⟨config.dbl_of_lt (by omega), Nat.div_lt_of_lt_mul (by omega)⟩

theorem mpnAddFrom_eq (small : carry < config.digBase) (jdigAre : AreDigits config.digBase jdig)
    (kdigAre : AreDigits config.digBase kdig) :
    mpnAddFrom config carry jdig kdig =
      carryOver config.digBase carry (sumColumns 1 jdig kdig) := by
  induction jdig generalizing carry kdig with
  | nil =>
    unfold mpnAddFrom
    simp only [sumColumns, carryOver, config.store_of_lt small]
  | cons digit jdig ih =>
    have fit := sumColumns_fit jdigAre kdigAre config.one_lt_digBase
    rw [sumColumns, forall_mem_cons] at fit
    obtain ⟨exact, below⟩ := config.dbl_carry small fit.1
    rw [areDigits_cons] at jdigAre
    cases kdig with
    | nil =>
      rw [sumColumns, carryOver, tail_nil,
        ← ih below jdigAre.2 areDigits_nil]
      simp only [headD_nil, Nat.mul_one, Nat.zero_add] at exact ⊢
      simp only [mpnAddFrom, exact]
    | cons other kdig =>
      rw [sumColumns, carryOver, tail_cons,
        ← ih below jdigAre.2 (areDigits_cons.mp kdigAre).2]
      simp only [headD_cons, Nat.mul_one] at exact ⊢
      rw [Nat.add_comm other digit] at exact ⊢
      simp only [mpnAddFrom, exact]

theorem mpnMulDigAddDig_eq (small : carry < config.digBase) (idigAre : AreDigits config.digBase idig)
    (base : dmul ≤ config.digBase) :
    mpnMulDigAddDig config dmul carry idig =
      carryOver config.digBase carry (sumColumns dmul idig []) := by
  induction idig generalizing carry with
  | nil => simp only [mpnMulDigAddDig, sumColumns, carryOver, config.store_of_lt small]
  | cons digit idig ih =>
    rw [areDigits_cons] at idigAre
    have fit : digit * dmul + config.digBase ≤ config.digBase * config.digBase := by
      calc digit * dmul + config.digBase ≤ digit * config.digBase + config.digBase :=
            Nat.add_le_add_right (Nat.mul_le_mul_left _ base) _
        _ = (digit + 1) * config.digBase := (Nat.succ_mul _ _).symm
        _ ≤ config.digBase * config.digBase := Nat.mul_le_mul_right _ idigAre.1
    obtain ⟨exact, below⟩ := config.dbl_carry small fit
    rw [sumColumns, carryOver, headD_nil, Nat.zero_add, tail_nil,
      ← ih below idigAre.2]
    simp only [mpnMulDigAddDig, exact]

theorem mpnMulRow_eq {digit : Nat} (small : carry < config.digBase)
    (below : digit < config.digBase) (jdigAre : AreDigits config.digBase jdig)
    (idigAre : AreDigits config.digBase idig) :
    mpnMulRow config digit carry jdig idig =
      carryOver config.digBase carry (sumColumns digit jdig idig) := by
  induction jdig generalizing carry idig with
  | nil =>
    unfold mpnMulRow
    simp only [sumColumns, carryOver, config.store_of_lt small]
  | cons jdigit jdig ih =>
    have fit := sumColumns_fit jdigAre idigAre below
    rw [sumColumns, forall_mem_cons] at fit
    obtain ⟨exact, next⟩ := config.dbl_carry small fit.1
    rw [areDigits_cons] at jdigAre
    rw [sumColumns, carryOver, ← ih next jdigAre.2
      fun digit member => idigAre digit (mem_of_mem_tail member)]
    simp only [mpnMulRow, exact]

theorem normal_carryOver_zero {columns : List Nat}
    (fit : ∀ column ∈ columns, column + config.digBase ≤ config.digBase * config.digBase)
    (atLeast : columns ≠ [] → config.digBase ^ (columns.length - 1) ≤
      Nat.ofDigits config.digBase columns) :
    Normal (carryOver config.digBase 0 columns) := by
  by_cases empty : columns = []
  · rw [empty]
    exact normal_nil
  · refine normal_carryOver config.one_lt_digBase config.digBase_pos fit ?_
    rw [Nat.zero_add]
    exact atLeast empty

theorem mpnAdd_spec (jdigAre : AreDigits config.digBase jdig)
    (kdigAre : AreDigits config.digBase kdig) (longer : kdig.length ≤ jdig.length) :
    Nat.ofDigits config.digBase (mpnAdd config jdig kdig) =
        Nat.ofDigits config.digBase jdig + Nat.ofDigits config.digBase kdig ∧
      AreDigits config.digBase (mpnAdd config jdig kdig) ∧
      (Normal jdig → Normal (mpnAdd config jdig kdig)) := by
  have fit := sumColumns_fit jdigAre kdigAre config.one_lt_digBase
  have total : Nat.ofDigits config.digBase (sumColumns 1 jdig kdig) =
      Nat.ofDigits config.digBase jdig + Nat.ofDigits config.digBase kdig := by
    rw [ofDigits_sumColumns longer, Nat.mul_one, Nat.add_comm]
  rw [mpnAdd, mpnAddFrom_eq config.digBase_pos jdigAre kdigAre]
  refine ⟨?_, areDigits_carryOver config.digBase_pos config.digBase_pos fit, fun normal => ?_⟩
  · rw [ofDigits_carryOver, total, Nat.zero_add]
  · refine normal_carryOver_zero fit fun nonempty => ?_
    have jdigNonempty : jdig ≠ [] := by
      rintro rfl
      exact nonempty rfl
    rw [length_sumColumns, total]
    exact (normal.pow_le jdigNonempty).trans (Nat.le_add_right _ _)

/-- `mpn_mul_dig_add_dig` multiplies and adds. -/
theorem mpnMulDigAddDig_spec (small : carry < config.digBase)
    (idigAre : AreDigits config.digBase idig) (base : dmul ≤ config.digBase) (positive : 0 < dmul)
    (normal : Normal idig) :
    Nat.ofDigits config.digBase (mpnMulDigAddDig config dmul carry idig) =
        Nat.ofDigits config.digBase idig * dmul + carry ∧
      AreDigits config.digBase (mpnMulDigAddDig config dmul carry idig) ∧
      Normal (mpnMulDigAddDig config dmul carry idig) := by
  have fit : ∀ column ∈ sumColumns dmul idig [],
      column + config.digBase ≤ config.digBase * config.digBase := by
    clear normal
    induction idig with
    | nil => simp [sumColumns]
    | cons digit idig ih =>
      rw [areDigits_cons] at idigAre
      rw [sumColumns, forall_mem_cons]
      refine ⟨?_, ih idigAre.2⟩
      calc 0 + digit * dmul + config.digBase ≤ digit * config.digBase + config.digBase := by
            rw [Nat.zero_add]
            exact Nat.add_le_add_right (Nat.mul_le_mul_left _ base) _
        _ = (digit + 1) * config.digBase := (Nat.succ_mul _ _).symm
        _ ≤ config.digBase * config.digBase := Nat.mul_le_mul_right _ idigAre.1
  have total : Nat.ofDigits config.digBase (sumColumns dmul idig []) =
      Nat.ofDigits config.digBase idig * dmul := by
    rw [ofDigits_sumColumns (Nat.zero_le _), Nat.ofDigits_nil, Nat.zero_add]
  rw [mpnMulDigAddDig_eq small idigAre base]
  refine ⟨?_, areDigits_carryOver config.digBase_pos small fit, ?_⟩
  · rw [ofDigits_carryOver, total, Nat.add_comm]
  · by_cases empty : idig = []
    · subst empty
      unfold sumColumns carryOver
      split_ifs with nonzero
      · exact (@normal_concat [] _).mpr nonzero
      · exact normal_nil
    · refine normal_carryOver config.one_lt_digBase small fit ?_
      rw [length_sumColumns, total]
      calc config.digBase ^ (idig.length - 1) ≤ Nat.ofDigits config.digBase idig :=
            normal.pow_le empty
        _ ≤ Nat.ofDigits config.digBase idig * dmul := Nat.le_mul_of_pos_right _ positive
        _ ≤ _ := Nat.le_add_left _ _

/-- The rows of `mpn_mul` add up to the product. -/
theorem mpnMulFrom_spec (jdigAre : AreDigits config.digBase jdig) (nonempty : jdig ≠ [])
    (kdigAre : AreDigits config.digBase kdig) (idigAre : AreDigits config.digBase idig)
    (shorter : idig.length ≤ jdig.length) :
    Nat.ofDigits config.digBase (mpnMulFrom config jdig idig kdig) =
        Nat.ofDigits config.digBase idig +
          Nat.ofDigits config.digBase jdig * Nat.ofDigits config.digBase kdig ∧
      AreDigits config.digBase (mpnMulFrom config jdig idig kdig) := by
  induction kdig generalizing idig with
  | nil => simpa [mpnMulFrom] using idigAre
  | cons digit kdig ih =>
    rw [areDigits_cons] at kdigAre
    have fit := sumColumns_fit jdigAre idigAre kdigAre.1
    have row := mpnMulRow_eq config.digBase_pos kdigAre.1 jdigAre idigAre
    have rowAre := areDigits_carryOver config.digBase_pos config.digBase_pos fit
    have rowValue : Nat.ofDigits config.digBase (mpnMulRow config digit 0 jdig idig) =
        Nat.ofDigits config.digBase idig + Nat.ofDigits config.digBase jdig * digit := by
      rw [row, ofDigits_carryOver, Nat.zero_add, ofDigits_sumColumns shorter]
    have rowShape := @carryOver_shape config.digBase 0 (sumColumns digit jdig idig)
    rw [← row] at rowAre rowShape
    rw [length_sumColumns] at rowShape
    have positive : 0 < jdig.length := length_pos_iff.mpr nonempty
    have rowLength : 0 < (mpnMulRow config digit 0 jdig idig).length ∧
        (mpnMulRow config digit 0 jdig idig).length ≤ jdig.length + 1 := by
      rcases rowShape with same | ⟨low, high, shape, -, length⟩
      · omega
      · rw [shape, length_append, length_singleton]
        omega
    obtain ⟨first, rest, isRow⟩ := exists_cons_of_length_pos rowLength.1
    rw [mpnMulFrom]
    simp only [isRow] at rowAre rowValue rowLength ⊢
    rw [areDigits_cons] at rowAre
    rw [Nat.ofDigits_cons] at rowValue
    obtain ⟨value, are⟩ := ih kdigAre.2 rowAre.2
      (by rw [length_cons] at rowLength; omega)
    rw [take_succ_cons, take_zero, tail_cons, singleton_append]
    refine ⟨?_, areDigits_cons.mpr ⟨rowAre.1, are⟩⟩
    rw [Nat.ofDigits_cons, value, Nat.ofDigits_cons, Nat.mul_add, ← Nat.add_assoc, rowValue]
    ring

/-- The digits of `mpn_mul` are one fewer than those of the factors together, or the last one is a
carry. -/
theorem mpnMulFrom_shape (jdigAre : AreDigits config.digBase jdig)
    (kdigAre : AreDigits config.digBase kdig) (idigAre : AreDigits config.digBase idig)
    (nonempty : jdig ≠ []) (some_ : kdig ≠ []) :
    (mpnMulFrom config jdig idig kdig).length + 1 = jdig.length + kdig.length ∨
      ∃ low high, mpnMulFrom config jdig idig kdig = low ++ [high] ∧ high ≠ 0 := by
  induction kdig generalizing idig with
  | nil => exact absurd rfl some_
  | cons digit kdig ih =>
    rw [areDigits_cons] at kdigAre
    have fit := sumColumns_fit jdigAre idigAre kdigAre.1
    have row := mpnMulRow_eq config.digBase_pos kdigAre.1 jdigAre idigAre
    have rowAre := areDigits_carryOver config.digBase_pos config.digBase_pos fit
    have rowShape := @carryOver_shape config.digBase 0 (sumColumns digit jdig idig)
    rw [← row] at rowAre rowShape
    rw [length_sumColumns] at rowShape
    have positive : 0 < jdig.length := length_pos_iff.mpr nonempty
    rw [mpnMulFrom]
    cases kdig with
    | nil =>
      have whole : (mpnMulRow config digit 0 jdig idig).take 1 ++
          mpnMulFrom config jdig (mpnMulRow config digit 0 jdig idig).tail [] =
            mpnMulRow config digit 0 jdig idig := by
        rw [mpnMulFrom, ← drop_one, take_append_drop]
      rw [whole]
      rcases rowShape with same | ⟨low, high, shape, nonzero, -⟩
      · exact Or.inl (by simp [same])
      · exact Or.inr ⟨low, high, shape, nonzero⟩
    | cons next kdig =>
      have rowLength : 0 < (mpnMulRow config digit 0 jdig idig).length := by
        rcases rowShape with same | ⟨low, high, shape, -, length⟩
        · omega
        · rw [shape, length_append, length_singleton]
          omega
      obtain ⟨first, rest, isRow⟩ := exists_cons_of_length_pos rowLength
      simp only [isRow] at rowAre ⊢
      rw [take_succ_cons, take_zero, tail_cons, singleton_append]
      rcases ih kdigAre.2 (areDigits_cons.mp rowAre).2 (by simp)
        with length | ⟨low, high, shape, nonzero⟩
      · exact Or.inl (by simp only [length_cons] at length ⊢; omega)
      · exact Or.inr ⟨first :: low, high, by rw [shape]; rfl, nonzero⟩

theorem mpnMul_spec (jdigAre : AreDigits config.digBase jdig)
    (kdigAre : AreDigits config.digBase kdig) (nonempty : jdig ≠ []) (some_ : kdig ≠ []) :
    Nat.ofDigits config.digBase (mpnMul config jdig kdig) =
        Nat.ofDigits config.digBase jdig * Nat.ofDigits config.digBase kdig ∧
      AreDigits config.digBase (mpnMul config jdig kdig) ∧
      (Normal jdig → Normal kdig → Normal (mpnMul config jdig kdig)) := by
  obtain ⟨product, are⟩ := mpnMulFrom_spec jdigAre nonempty kdigAre areDigits_nil (Nat.zero_le _)
  rw [Nat.ofDigits_nil, Nat.zero_add] at product
  refine ⟨product, are, fun jdigNormal kdigNormal => ?_⟩
  rcases mpnMulFrom_shape jdigAre kdigAre areDigits_nil nonempty some_
    with length | ⟨low, high, shape, nonzero⟩
  · refine normal_of_pow_le config.one_lt_digBase are ?_
    have exponent : (mpnMul config jdig kdig).length - 1 = jdig.length - 1 + (kdig.length - 1) := by
      have jdigPositive := length_pos_iff.mpr nonempty
      have kdigPositive := length_pos_iff.mpr some_
      rw [mpnMul]
      omega
    rw [exponent, Nat.pow_add, mpnMul, product]
    exact Nat.mul_le_mul (jdigNormal.pow_le nonempty) (kdigNormal.pow_le some_)
  · rw [mpnMul, shape, normal_concat]
    exact nonzero

/-- The loop of `mpn_cmp` compares the values of as many digits. -/
theorem mpnCmpFrom_eq (idigAre : AreDigits config.digBase idig)
    (jdigAre : AreDigits config.digBase jdig) (sameLength : idig.length = jdig.length) :
    mpnCmpFrom idig jdig =
      compare (Nat.ofDigits config.digBase idig.reverse)
        (Nat.ofDigits config.digBase jdig.reverse) := by
  induction idig generalizing jdig with
  | nil =>
    obtain rfl := eq_nil_of_length_eq_zero sameLength.symm
    rfl
  | cons idigit idig ih =>
    cases jdig with
    | nil => simp at sameLength
    | cons jdigit jdig =>
      have rest : idig.length = jdig.length := by simpa using sameLength
      rw [areDigits_cons] at idigAre jdigAre
      have idigSmall := (areDigits_reverse.mpr idigAre.2).lt_pow config.one_lt_digBase
      have jdigSmall := (areDigits_reverse.mpr jdigAre.2).lt_pow config.one_lt_digBase
      rw [length_reverse] at idigSmall jdigSmall
      rw [← rest] at jdigSmall
      simp only [reverse_cons, ofDigits_concat, length_reverse, mpnCmpFrom, ← rest]
      split_ifs with less more
      · refine (Nat.compare_eq_lt.mpr ?_).symm
        have carried := Nat.mul_le_mul_left (config.digBase ^ idig.length) less
        rw [Nat.mul_succ] at carried
        omega
      · refine (Nat.compare_eq_gt.mpr ?_).symm
        have carried := Nat.mul_le_mul_left (config.digBase ^ idig.length) more
        rw [Nat.mul_succ] at carried
        omega
      · obtain rfl : idigit = jdigit := by omega
        rw [ih idigAre.2 jdigAre.2 rest]
        simp only [compare, compareOfLessAndEq, Nat.add_lt_add_iff_right, Nat.add_right_cancel_iff]

/-- `mpn_cmp` compares the values of normal digits. -/
theorem mpnCmp_eq (idigAre : AreDigits config.digBase idig)
    (jdigAre : AreDigits config.digBase jdig) (idigNormal : Normal idig)
    (jdigNormal : Normal jdig) :
    mpnCmp idig jdig =
      compare (Nat.ofDigits config.digBase idig) (Nat.ofDigits config.digBase jdig) := by
  unfold mpnCmp
  split_ifs with shorter longer
  · exact (Nat.compare_eq_lt.mpr
      (jdigNormal.lt_of_length_lt config.one_lt_digBase idigAre shorter)).symm
  · exact (Nat.compare_eq_gt.mpr
      (idigNormal.lt_of_length_lt config.one_lt_digBase jdigAre longer)).symm
  · rw [mpnCmpFrom_eq (areDigits_reverse.mpr idigAre) (areDigits_reverse.mpr jdigAre)
      (by simp; omega), reverse_reverse, reverse_reverse]

theorem MpzConfig.bmod_dblBase {value : Int}
    (above : -(config.digBase * config.digBase : Nat) ≤ 2 * value)
    (below : 2 * value < (config.digBase * config.digBase : Nat)) :
    value.bmod config.dblBase = value := by
  have room : ((config.digBase * config.digBase : Nat) : Int) ≤ config.dblBase := by
    exact_mod_cast config.digBase_mul_self_le
  exact Int.bmod_eq_of_le (by omega) (by omega)

/-- The loops of `mpn_sub` subtract, modulo the numbers of that many digits. -/
theorem mpnSubFrom_spec {borrow : Int} (above : -1 ≤ borrow) (below : borrow ≤ 0)
    (jdigAre : AreDigits config.digBase jdig) (kdigAre : AreDigits config.digBase kdig)
    (longer : kdig.length ≤ jdig.length) :
    ((Nat.ofDigits config.digBase (mpnSubFrom config borrow jdig kdig) : Nat) : Int) =
        (borrow + (((Nat.ofDigits config.digBase jdig : Nat) : Int) -
          (Nat.ofDigits config.digBase kdig : Nat))) % (config.digBase : Int) ^ jdig.length ∧
      AreDigits config.digBase (mpnSubFrom config borrow jdig kdig) := by
  have large := config.digBase_large
  have square : 16 * config.digBase ≤ config.digBase * config.digBase :=
    Nat.mul_le_mul_right _ large
  induction jdig generalizing borrow kdig with
  | nil =>
    obtain rfl := eq_nil_of_length_eq_zero (Nat.le_zero.mp longer)
    unfold mpnSubFrom
    simp
  | cons jdigit jdig ih =>
    rw [areDigits_cons] at jdigAre
    -- One digit, with what is subtracted from it.
    have digit (kdigit : Nat) (small : kdigit < config.digBase) (rest : List Nat)
        (restAre : AreDigits config.digBase rest) (restLonger : rest.length ≤ jdig.length)
        (exact : (borrow + ((jdigit : Int) - kdigit)).bmod config.dblBase =
          borrow + ((jdigit : Int) - kdigit)) :
        ((Nat.ofDigits config.digBase
            (((borrow + ((jdigit : Int) - kdigit)) % config.digBase).toNat ::
              mpnSubFrom config ((borrow + ((jdigit : Int) - kdigit)) / config.digBase) jdig
                rest) : Nat) : Int) =
          (borrow + (((Nat.ofDigits config.digBase (jdigit :: jdig) : Nat) : Int) -
            (Nat.ofDigits config.digBase (kdigit :: rest) : Nat))) %
              (config.digBase : Int) ^ (jdigit :: jdig).length ∧
        AreDigits config.digBase
          (((borrow + ((jdigit : Int) - kdigit)) % config.digBase).toNat ::
            mpnSubFrom config ((borrow + ((jdigit : Int) - kdigit)) / config.digBase) jdig
              rest) := by
      have positive : (0 : Int) < config.digBase := by exact_mod_cast config.digBase_pos
      have low := Int.emod_nonneg (borrow + ((jdigit : Int) - kdigit)) positive.ne'
      have lowSmall := Int.emod_lt_of_pos (borrow + ((jdigit : Int) - kdigit)) positive
      have nextAbove : -1 ≤ (borrow + ((jdigit : Int) - kdigit)) / config.digBase :=
        Int.le_ediv_of_mul_le positive (by omega)
      have nextBelow : (borrow + ((jdigit : Int) - kdigit)) / config.digBase < 1 :=
        Int.ediv_lt_of_lt_mul positive (by omega)
      obtain ⟨value, are⟩ :=
        ih nextAbove (by omega) jdigAre.2 restAre restLonger
      refine ⟨?_, areDigits_cons.mpr ⟨by omega, are⟩⟩
      rw [Nat.ofDigits_cons, Nat.cast_add, Nat.cast_mul, value, Int.toNat_of_nonneg low,
        emod_add_mul_emod positive (by positivity), length_cons,
        Int.pow_succ', Nat.ofDigits_cons, Nat.ofDigits_cons]
      congr 1
      push_cast
      ring
    cases kdig with
    | nil =>
      have exact : (borrow + (jdigit : Int)).bmod config.dblBase = borrow + jdigit :=
        config.bmod_dblBase (by omega) (by omega)
      have step := digit 0 (by omega) [] areDigits_nil (Nat.zero_le _)
        (by simpa using exact)
      rw [mpnSubFrom]
      simp only [exact]
      simpa using step
    | cons kdigit kdig =>
      rw [areDigits_cons] at kdigAre
      have exact : (borrow + ((jdigit : Int) - kdigit)).bmod config.dblBase =
          borrow + ((jdigit : Int) - kdigit) :=
        config.bmod_dblBase (by omega) (by omega)
      have step := digit kdigit kdigAre.1 kdig kdigAre.2 (by simpa using longer) exact
      rw [mpnSubFrom]
      simp only [exact]
      exact step

theorem mpnSub_spec (jdigAre : AreDigits config.digBase jdig)
    (kdigAre : AreDigits config.digBase kdig) (longer : kdig.length ≤ jdig.length)
    (notLarger : Nat.ofDigits config.digBase kdig ≤ Nat.ofDigits config.digBase jdig) :
    Nat.ofDigits config.digBase (mpnSub config jdig kdig) =
        Nat.ofDigits config.digBase jdig - Nat.ofDigits config.digBase kdig ∧
      AreDigits config.digBase (mpnSub config jdig kdig) ∧ Normal (mpnSub config jdig kdig) := by
  obtain ⟨value, are⟩ := mpnSubFrom_spec (by omega : (-1 : Int) ≤ 0) le_rfl jdigAre kdigAre longer
  have small := jdigAre.lt_pow config.one_lt_digBase
  refine ⟨?_, are.trimZeros, normal_trimZeros⟩
  rw [mpnSub, ofDigits_trimZeros]
  have smallCast : ((Nat.ofDigits config.digBase jdig : Nat) : Int) <
      (config.digBase : Int) ^ jdig.length := by exact_mod_cast small
  rw [Int.zero_add, Int.emod_eq_of_lt (by omega) (by omega)] at value
  omega

theorem MpzConfig.dbl_mul_digBase (prev : Nat) :
    ∃ kept, config.dbl (prev * config.digBase) = kept * config.digBase ∧
      kept % config.digBase = prev % config.digBase := by
  have widths := config.two_mul_digSize_le
  have split : config.dblBase = config.digBase * (config.digBase *
      2 ^ (config.dblDigSize - 2 * config.digSize)) := by
    rw [MpzConfig.dblBase, MpzConfig.digBase, ← Nat.pow_add, ← Nat.pow_add]
    congr 1
    omega
  refine ⟨prev % (config.digBase * 2 ^ (config.dblDigSize - 2 * config.digSize)), ?_,
    Nat.mod_mul_right_mod _ _ _⟩
  rw [MpzConfig.dbl, split, Nat.mul_comm prev, Nat.mul_mod_mul_left, Nat.mul_comm]

theorem shift_digits {low high small large : Nat} (parts : small * large = config.digBase)
    (smallPositive : 0 < small) (lowInside : low < config.digBase) :
    (high * config.digBase + low) / small % config.digBase =
      high % small * large + low / small := by
  have lowPart : low / small < large := Nat.div_lt_of_lt_mul (by rw [parts]; exact lowInside)
  have highPart : high % small * large + large ≤ config.digBase := by
    rw [← Nat.succ_mul, ← parts]
    exact Nat.mul_le_mul_right _ (Nat.mod_lt _ smallPositive)
  have split : (high * config.digBase + low) / small =
      high % small * large + low / small + config.digBase * (high / small) := by
    have shifted : high * config.digBase = small * (high * large) := by
      rw [← parts]
      ring
    rw [shifted, Nat.mul_add_div smallPositive, ← parts]
    conv_lhs => rw [← Nat.mod_add_div high small]
    ring
  rw [split, Nat.add_mul_mod_self_left, Nat.mod_eq_of_lt (by omega)]

/-- The loop of `mpn_shl` moves the bits that are left over to the next digit. -/
theorem mpnShlFrom_spec {nPart prev : Nat} (part : nPart ≤ config.digSize)
    (jdigAre : AreDigits config.digBase jdig) :
    Nat.ofDigits config.digBase
        (mpnShlFrom config nPart (config.dbl (prev * config.digBase)) jdig).reverse =
      (prev % 2 ^ (config.digSize - nPart) * config.digBase ^ jdig.length +
        Nat.ofDigits config.digBase jdig.reverse) * 2 ^ nPart ∧
    (mpnShlFrom config nPart (config.dbl (prev * config.digBase)) jdig).length =
      jdig.length + 1 ∧
    AreDigits config.digBase
      (mpnShlFrom config nPart (config.dbl (prev * config.digBase)) jdig) := by
  have parts : 2 ^ (config.digSize - nPart) * 2 ^ nPart = config.digBase := by
    rw [← Nat.pow_add, MpzConfig.digBase]
    congr 1
    omega
  have smallPositive : 0 < 2 ^ (config.digSize - nPart) := Nat.two_pow_pos _
  have dvd : 2 ^ (config.digSize - nPart) ∣ config.digBase := Dvd.intro _ parts
  induction jdig generalizing prev with
  | nil =>
    obtain ⟨kept, isKept, same⟩ := config.dbl_mul_digBase prev
    have samePart : kept % 2 ^ (config.digSize - nPart) = prev % 2 ^ (config.digSize - nPart) := by
      rw [← Nat.mod_mod_of_dvd kept dvd, same, Nat.mod_mod_of_dvd prev dvd]
    have digit := @shift_digits config 0 kept _ _ parts smallPositive config.digBase_pos
    rw [Nat.add_zero, Nat.zero_div, Nat.add_zero, samePart] at digit
    rw [mpnShlFrom, isKept, Nat.shiftRight_eq_div_pow, digit]
    refine ⟨by simp, rfl, ?_⟩
    rw [areDigits_cons]
    refine ⟨?_, areDigits_nil⟩
    rw [← parts]
    exact Nat.mul_lt_mul_of_pos_right (Nat.mod_lt _ smallPositive) (Nat.two_pow_pos _)
  | cons digit jdig ih =>
    rw [areDigits_cons] at jdigAre
    obtain ⟨kept, isKept, same⟩ := config.dbl_mul_digBase prev
    have samePart : kept % 2 ^ (config.digSize - nPart) = prev % 2 ^ (config.digSize - nPart) := by
      rw [← Nat.mod_mod_of_dvd kept dvd, same, Nat.mod_mod_of_dvd prev dvd]
    have joined : kept * config.digBase ||| digit = kept * config.digBase + digit := by
      rw [MpzConfig.digBase, ← Nat.shiftLeft_eq]
      exact (Nat.shiftLeft_add_eq_or_of_lt jdigAre.1 kept).symm
    have out := @shift_digits config digit kept _ _ parts smallPositive jdigAre.1
    have outSmall := Nat.mod_lt
      ((kept * config.digBase + digit) / 2 ^ (config.digSize - nPart)) config.digBase_pos
    have carried : (kept * config.digBase + digit) % 2 ^ (config.digSize - nPart) =
        digit % 2 ^ (config.digSize - nPart) := by
      rw [← parts, ← Nat.mul_assoc, Nat.mul_right_comm, Nat.add_comm,
        Nat.add_mul_mod_self_right]
    obtain ⟨value, length, are⟩ :=
      @ih (kept * config.digBase + digit) jdigAre.2
    rw [mpnShlFrom, isKept, joined, Nat.shiftLeft_eq, ← MpzConfig.digBase,
      Nat.shiftRight_eq_div_pow]
    refine ⟨?_, by rw [length_cons, length, length_cons],
      areDigits_cons.mpr ⟨outSmall, are⟩⟩
    rw [reverse_cons, ofDigits_concat, length_reverse, length, value, out, samePart,
      carried, reverse_cons, ofDigits_concat, length_reverse, length_cons]
    have wholeDigit := Nat.mod_add_div digit (2 ^ (config.digSize - nPart))
    have carriedUp : config.digBase ^ (jdig.length + 1) * (digit / 2 ^ (config.digSize - nPart)) =
        2 ^ (config.digSize - nPart) * (digit / 2 ^ (config.digSize - nPart)) *
          config.digBase ^ jdig.length * 2 ^ nPart := by
      calc config.digBase ^ (jdig.length + 1) * (digit / 2 ^ (config.digSize - nPart))
          = config.digBase *
              (digit / 2 ^ (config.digSize - nPart) * config.digBase ^ jdig.length) := by
            rw [Nat.pow_succ]
            ring
        _ = 2 ^ (config.digSize - nPart) * 2 ^ nPart *
              (digit / 2 ^ (config.digSize - nPart) * config.digBase ^ jdig.length) := by
            rw [parts]
        _ = _ := by ring
    rw [Nat.mul_add, carriedUp]
    conv_rhs => rw [← wholeDigit]
    ring

/-- `mpn_shl` multiplies by a power of two. -/
theorem mpnShl_spec (jdigAre : AreDigits config.digBase jdig) {n : Nat} (positive : 0 < n) :
    Nat.ofDigits config.digBase (mpnShl config jdig n) =
        Nat.ofDigits config.digBase jdig * 2 ^ n ∧
      AreDigits config.digBase (mpnShl config jdig n) ∧ Normal (mpnShl config jdig n) := by
  have digSizePositive : 0 < config.digSize := by
    have := config.atLeast
    omega
  obtain ⟨nPart, isPart, partPositive, part, whole⟩ : ∃ nPart,
      nPart = (if n % config.digSize = 0 then config.digSize else n % config.digSize) ∧
        0 < nPart ∧ nPart ≤ config.digSize ∧
        config.digSize * ((n + config.digSize - 1) / config.digSize - 1) + nPart = n := by
    refine ⟨_, rfl, ?_⟩
    have split := Nat.div_add_mod n config.digSize
    have small := Nat.mod_lt n digSizePositive
    split_ifs with exact
    · have quotient : (n + config.digSize - 1) / config.digSize = n / config.digSize :=
        Nat.div_eq_of_lt_le (by rw [Nat.mul_comm]; omega) (by rw [Nat.succ_mul, Nat.mul_comm]; omega)
      have most : 0 < n / config.digSize := by
        rcases Nat.eq_zero_or_pos (n / config.digSize) with none | some_
        · rw [none] at split
          omega
        · exact some_
      refine ⟨digSizePositive, le_rfl, ?_⟩
      rw [quotient, Nat.mul_sub, Nat.mul_one]
      have atLeast := Nat.mul_le_mul_left config.digSize most
      omega
    · have quotient : (n + config.digSize - 1) / config.digSize = n / config.digSize + 1 :=
        Nat.div_eq_of_lt_le (by rw [Nat.succ_mul, Nat.mul_comm]; omega)
          (by rw [Nat.succ_mul, Nat.succ_mul, Nat.mul_comm]; omega)
      refine ⟨by omega, small.le, ?_⟩
      rw [quotient, Nat.add_sub_cancel]
      omega
  have dblZero : config.dbl (0 * config.digBase) = 0 := by rw [Nat.zero_mul]; rfl
  obtain ⟨value, -, are⟩ := @mpnShlFrom_spec config _ _ 0 part (areDigits_reverse.mpr jdigAre)
  rw [dblZero, Nat.zero_mod, Nat.zero_mul, Nat.zero_add, reverse_reverse] at value
  rw [dblZero] at are
  refine ⟨?_, ?_, normal_trimZeros⟩
  · rw [mpnShl, ofDigits_trimZeros, Nat.ofDigits_append, Nat.ofDigits_replicate_zero,
      Nat.zero_add, length_replicate, ← isPart, value]
    conv_rhs => rw [← whole, Nat.pow_add, Nat.pow_mul, ← MpzConfig.digBase]
    ring
  · rw [mpnShl, ← isPart]
    exact (areDigits_append.mpr ⟨areDigits_replicate_zero config.digBase_pos _,
      areDigits_reverse.mpr are⟩).trimZeros

/-- The loop of `mpn_shr` moves the bits that are left over to the digit before. -/
theorem mpnShrFrom_spec {nPart : Nat} (part : nPart < config.digSize)
    (jdigAre : AreDigits config.digBase jdig) :
    Nat.ofDigits config.digBase (mpnShrFrom config nPart jdig) =
        Nat.ofDigits config.digBase jdig / 2 ^ nPart ∧
      (mpnShrFrom config nPart jdig).length = jdig.length ∧
      AreDigits config.digBase (mpnShrFrom config nPart jdig) := by
  have parts : 2 ^ nPart * 2 ^ (config.digSize - nPart) = config.digBase := by
    rw [← Nat.pow_add, MpzConfig.digBase]
    congr 1
    omega
  have smallPositive : 0 < 2 ^ nPart := Nat.two_pow_pos _
  induction jdig with
  | nil => exact ⟨by simp [mpnShrFrom], rfl, areDigits_nil⟩
  | cons digit jdig ih =>
    rw [areDigits_cons] at jdigAre
    obtain ⟨value, length, are⟩ := ih jdigAre.2
    cases jdig with
    | nil =>
      have small : digit / 2 ^ nPart < config.digBase :=
        (Nat.div_le_self _ _).trans_lt jdigAre.1
      rw [mpnShrFrom, Nat.shiftRight_eq_div_pow, Nat.mod_eq_of_lt small]
      exact ⟨by simp, rfl, areDigits_cons.mpr ⟨small, areDigits_nil⟩⟩
    | cons next jdig =>
      have joined : digit ||| next <<< config.digSize = next * config.digBase + digit := by
        rw [Nat.or_comm, MpzConfig.digBase, ← Nat.shiftLeft_eq]
        exact (Nat.shiftLeft_add_eq_or_of_lt jdigAre.1 next).symm
      have out := @shift_digits config digit next _ _ parts smallPositive jdigAre.1
      have outSmall := Nat.mod_lt ((next * config.digBase + digit) / 2 ^ nPart)
        config.digBase_pos
      rw [mpnShrFrom, joined, Nat.shiftRight_eq_div_pow]
      refine ⟨?_, by rw [length_cons, length]; rfl, areDigits_cons.mpr ⟨outSmall, are⟩⟩
      have dvd : 2 ^ nPart ∣ config.digBase := Dvd.intro _ parts
      have carried : Nat.ofDigits config.digBase (next :: jdig) % 2 ^ nPart =
          next % 2 ^ nPart := by
        rw [Nat.ofDigits_cons, ← parts, Nat.mul_assoc, Nat.add_mul_mod_self_left]
      have split := Nat.mod_add_div (Nat.ofDigits config.digBase (next :: jdig)) (2 ^ nPart)
      rw [carried] at split
      have unfolded : Nat.ofDigits config.digBase (digit :: next :: jdig) =
          digit + config.digBase * Nat.ofDigits config.digBase (next :: jdig) :=
        Nat.ofDigits_cons
      rw [Nat.ofDigits_cons, value, out, unfolded]
      clear unfolded value carried
      generalize Nat.ofDigits config.digBase (next :: jdig) = rest at *
      have total : digit + config.digBase * rest =
          2 ^ nPart * (next % 2 ^ nPart * 2 ^ (config.digSize - nPart) +
            config.digBase * (rest / 2 ^ nPart)) + digit := by
        conv_lhs => rw [← split]
        rw [← parts]
        ring
      rw [total, Nat.mul_add_div smallPositive]
      omega

/-- `mpn_shr` divides by a power of two. -/
theorem mpnShr_spec (jdigAre : AreDigits config.digBase jdig) (normal : Normal jdig) (n : Nat) :
    Nat.ofDigits config.digBase (mpnShr config jdig n) =
        Nat.ofDigits config.digBase jdig / 2 ^ n ∧
      AreDigits config.digBase (mpnShr config jdig n) ∧ Normal (mpnShr config jdig n) := by
  have digSizePositive : 0 < config.digSize := by
    have := config.atLeast
    omega
  have part := Nat.mod_lt n digSizePositive
  have power : 2 ^ n = config.digBase ^ (n / config.digSize) * 2 ^ (n % config.digSize) := by
    rw [MpzConfig.digBase, ← Nat.pow_mul, ← Nat.pow_add, Nat.div_add_mod]
  have dropValue := Nat.ofDigits_div_pow_eq_ofDigits_drop (n / config.digSize) config.digBase_pos
    jdig jdigAre
  have quotient : Nat.ofDigits config.digBase jdig / 2 ^ n =
      Nat.ofDigits config.digBase (jdig.drop (n / config.digSize)) / 2 ^ (n % config.digSize) := by
    rw [power, ← Nat.div_div_eq_div_mul, dropValue]
  obtain ⟨value, length, are⟩ := mpnShrFrom_spec part (jdigAre.drop (n / config.digSize))
  rw [quotient, mpnShr]
  by_cases short : jdig.length ≤ n / config.digSize
  · rw [if_pos short, drop_of_length_le short]
    exact ⟨by simp, areDigits_nil, normal_nil⟩
  rw [if_neg short]
  dsimp only
  split_ifs with isZero
  · obtain ⟨low, shape⟩ := getLast?_eq_some_iff.mp isZero
    rw [shape, dropLast_concat]
    rw [shape] at value are length
    rw [Nat.ofDigits_append_zero] at value
    rw [areDigits_append] at are
    rw [length_append, length_singleton] at length
    refine ⟨value, are.1, ?_⟩
    rcases low.eq_nil_or_concat' with rfl | ⟨lower, last, isLow⟩
    · exact normal_nil
    -- The highest digit has become zero, so the one below it has got its bits.
    · refine normal_of_pow_le config.one_lt_digBase are.1 ?_
      have dropNonempty : jdig.drop (n / config.digSize) ≠ [] := by
        intro none
        rw [none] at length
        simp at length
      have atLeast : config.digBase ^ ((jdig.drop (n / config.digSize)).length - 1) ≤
          Nat.ofDigits config.digBase (jdig.drop (n / config.digSize)) :=
        (normal.drop _).pow_le dropNonempty
      have lowLength : low.length = lower.length + 1 := by rw [isLow]; simp
      rw [value, Nat.le_div_iff_mul_le (Nat.two_pow_pos _)]
      calc config.digBase ^ (low.length - 1) * 2 ^ (n % config.digSize)
          ≤ config.digBase ^ (low.length - 1) * config.digBase :=
            Nat.mul_le_mul_left _ (Nat.pow_le_pow_right (by omega) part.le)
        _ = config.digBase ^ ((jdig.drop (n / config.digSize)).length - 1) := by
            rw [← Nat.pow_succ]
            congr 1
            omega
        _ ≤ _ := atLeast
  · refine ⟨value, are, fun nonempty lastZero => isZero ?_⟩
    rw [getLast?_eq_getLast_of_ne_nil nonempty, lastZero]

end Values

end MultiPython.Mpz
