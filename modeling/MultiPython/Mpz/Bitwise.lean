import MultiPython.Logic.TwosComplement
import MultiPython.Mpz.Shift

/-!
# Bitwise operations in place

The loops of `py/mpz.c` that work on two's complement while the digits are a sign and a magnitude:
the carries of the operands and of the result go from digit to digit at the same time. A loop
leaves the magnitude of the result, and a carry that the magnitude may need as one more digit; the
loop for a disjunction asserts that there is none.
-/

namespace MultiPython.Mpz.InPlace

open Logic List Option

variable (config : MpzConfig)

def digMask : Nat := config.digBase - 1

/-! ## Digits -/

/-- A round of the loops for operands without a sign. -/
def plainRound (op : Nat → Nat → Nat) (state : Unit) (jdig : Nat) (kdig : Option Nat) :
    Option (Unit × Nat) :=
  some (state, op jdig (kdig.getD 0))

/-- `mpn_and`, which has as many rounds as the shorter operand has digits. -/
def mpnAnd (dest : List Nat) (jdig kdig : Source Nat) (klen : Nat) : Option (Nat × List Nat) := do
  let done ← pass (plainRound (· &&& ·)) jdig kdig klen klen 0 () dest
  some (mpnRemoveTrailingZeros done.2 klen, done.2)

def mpnOr (dest : List Nat) (jdig : Source Nat) (jlen : Nat) (kdig : Source Nat) (klen : Nat) :
    Option (Nat × List Nat) := do
  let done ← pass (plainRound (· ||| ·)) jdig kdig klen jlen 0 () dest
  some (jlen, done.2)

def mpnXor (dest : List Nat) (jdig : Source Nat) (jlen : Nat) (kdig : Source Nat) (klen : Nat) :
    Option (Nat × List Nat) := do
  let done ← pass (plainRound (· ^^^ ·)) jdig kdig klen jlen 0 () dest
  some (mpnRemoveTrailingZeros done.2 jlen, done.2)

/-- `carryi`, `carryj` and `carryk`. -/
structure Carries where
  i : Nat
  j : Nat
  k : Nat

/-- A round of the loops for operands with a sign. The terms are what a digit of an operand adds to
its carry, where a digit that `k` does not have is zero. -/
def signedRound (op : Nat → Nat → Nat) (jterm kterm : Nat → Nat) (imask : Nat) (carry : Carries)
    (jdig : Nat) (kdig : Option Nat) : Option (Carries × Nat) :=
  let carryj := config.dbl (carry.j + jterm jdig)
  let carryk := config.dbl (carry.k + kterm (kdig.getD 0))
  let carryi := config.dbl (carry.i + (op carryj carryk ^^^ imask) % config.digBase)
  some (⟨carryi / config.digBase, carryj / config.digBase, carryk / config.digBase⟩,
    carryi % config.digBase)

/-- `imask`, `jmask` or `kmask`, by the carry at the beginning. -/
def mask (carry : Nat) : Nat := if carry = 0 then 0 else digMask config

def mpnAndNeg (dest : List Nat) (jdig : Source Nat) (jlen : Nat) (kdig : Source Nat) (klen : Nat)
    (carry : Carries) : Option (Nat × List Nat) := do
  let done ← pass (signedRound config (· &&& ·) (· ^^^ mask config carry.j)
    (· ^^^ mask config carry.k) (mask config carry.i)) jdig kdig klen jlen 0 carry dest
  let done ← storeCarry config jlen done.1.i done.2
  some (mpnRemoveTrailingZeros done.2 done.1, done.2)

/-- `mpn_or_neg`. With `MICROPY_OPT_MPZ_BITWISE` it is called without `carryi`, which is one. -/
def mpnOrNeg (dest : List Nat) (jdig : Source Nat) (jlen : Nat) (kdig : Source Nat) (klen : Nat)
    (carry : Carries) : Option (Nat × List Nat) := do
  let done ← pass (signedRound config (· ||| ·) (· ^^^ mask config carry.j)
    (· ^^^ mask config carry.k) (mask config carry.i)) jdig kdig klen jlen 0 carry dest
  if done.1.i = 0 then some (mpnRemoveTrailingZeros done.2 jlen, done.2) else none

def mpnXorNeg (dest : List Nat) (jdig : Source Nat) (jlen : Nat) (kdig : Source Nat) (klen : Nat)
    (carry : Carries) : Option (Nat × List Nat) := do
  let done ← pass (signedRound config (· ^^^ ·) (· + digMask config) (· + digMask config) 0)
    jdig kdig klen jlen 0 carry dest
  let done ← storeCarry config jlen done.1.i done.2
  some (mpnRemoveTrailingZeros done.2 done.1, done.2)

/-! ## Big integers -/

/-- The destination of `mpz_not_inpl` with the operand in it. -/
def notOperand (fill : Nat → Nat) (dest : MpzBuf) : Arg → Option MpzBuf
  | .dest => some dest
  | .other z => mpzSet fill dest (.other z)

/-- `mpz_not_inpl`, with the operand in the destination. -/
def notInDest (fill : Nat → Nat) (dest : MpzBuf) : Option MpzBuf :=
  if dest.len = 0 then
    dest.fillWith fill 1 true fun block => (storeAt block 0 [1]).map fun block => (1, block)
  else if dest.neg then
    dest.assign false (mpnSub config dest.dig .same dest.len (.apart [1]) 1)
  else
    dest.fillWith fill (dest.len + 1) true fun block =>
      mpnAdd config block .same dest.len (.apart [1]) 1

def mpzNotInpl (fill : Nat → Nat) (dest : MpzBuf) (z : Arg) : Option MpzBuf :=
  (notOperand fill dest z).bind (notInDest config fill)

section Ordered

variable (fill : Nat → Nat) (dest : MpzBuf) (lhs rhs : Arg)

/-- `mpz_and_inpl`, after the operands have been swapped. -/
def andOrdered : Option MpzBuf :=
  let l := lhs.deref dest
  let r := rhs.deref dest
  if config.optBitwise then
    if l.neg = false ∧ r.neg = false then
      dest.fillWith fill l.len false fun block => mpnAnd block lhs.source rhs.source r.len
    else
      dest.fillWith fill (l.len + 1) (l.neg && r.neg) fun block =>
        mpnAndNeg config block lhs.source l.len rhs.source r.len
          ⟨(l.neg == r.neg).toNat, l.neg.toNat, r.neg.toNat⟩
  else
    dest.fillWith fill (l.len + (l.neg || r.neg).toNat) (l.neg && r.neg) fun block =>
      mpnAndNeg config block lhs.source l.len rhs.source r.len
        ⟨(if l.neg = r.neg then l.neg else false).toNat, l.neg.toNat, r.neg.toNat⟩

/-- `mpz_or_inpl`, after the operands have been swapped. -/
def orOrdered : Option MpzBuf :=
  let l := lhs.deref dest
  let r := rhs.deref dest
  if config.optBitwise then
    if l.neg = false ∧ r.neg = false then
      dest.fillWith fill l.len false fun block => mpnOr block lhs.source l.len rhs.source r.len
    else
      dest.fillWith fill (l.len + 1) true fun block =>
        mpnOrNeg config block lhs.source l.len rhs.source r.len ⟨1, l.neg.toNat, r.neg.toNat⟩
  else
    dest.fillWith fill (l.len + (l.neg || r.neg).toNat) (l.neg || r.neg) fun block =>
      mpnOrNeg config block lhs.source l.len rhs.source r.len
        ⟨(l.neg || r.neg).toNat, l.neg.toNat, r.neg.toNat⟩

/-- `mpz_xor_inpl`, after the operands have been swapped. -/
def xorOrdered : Option MpzBuf :=
  let l := lhs.deref dest
  let r := rhs.deref dest
  if config.optBitwise then
    if l.neg = r.neg then
      dest.fillWith fill l.len false fun block =>
        if l.neg = false then mpnXor block lhs.source l.len rhs.source r.len
        else mpnXorNeg config block lhs.source l.len rhs.source r.len ⟨0, 0, 0⟩
    else
      dest.fillWith fill (l.len + 1) true fun block =>
        mpnXorNeg config block lhs.source l.len rhs.source r.len
          ⟨1, (!l.neg).toNat, (!r.neg).toNat⟩
  else
    dest.fillWith fill (l.len + (l.neg || r.neg).toNat) (l.neg ^^ r.neg) fun block =>
      mpnXorNeg config block lhs.source l.len rhs.source r.len
        ⟨(l.neg != r.neg).toNat, (!l.neg).toNat, (!r.neg).toNat⟩

def mpzAndInpl : Option MpzBuf :=
  if (lhs.deref dest).len < (rhs.deref dest).len then andOrdered config fill dest rhs lhs
  else andOrdered config fill dest lhs rhs

def mpzOrInpl : Option MpzBuf :=
  if (lhs.deref dest).len < (rhs.deref dest).len then orOrdered config fill dest rhs lhs
  else orOrdered config fill dest lhs rhs

def mpzXorInpl : Option MpzBuf :=
  if (lhs.deref dest).len < (rhs.deref dest).len then xorOrdered config fill dest rhs lhs
  else xorOrdered config fill dest lhs rhs

end Ordered

/-! ## What the loops compute -/

section Loops

variable {config} {op : Nat → Nat → Nat} {bit : Bool → Bool → Bool} {jterm kterm : Nat → Nat}
  {imask : Nat} {carry : Carries} {jdigs kdigs : List Nat}

theorem column_spec {carry term : Nat} (small : carry < config.digBase)
    (termSmall : term < 2 * config.digBase) :
    config.dbl (carry + term) = carry + term ∧
      (carry + term) / config.digBase < config.digBase := by
  have large := config.digBase_large
  have square : 16 * config.digBase ≤ config.digBase * config.digBase :=
    Nat.mul_le_mul_right _ large
  exact ⟨config.dbl_of_lt (by omega), Nat.div_lt_of_lt_mul (by omega)⟩

theorem sum_cons {base carry term rest above final length : Nat}
    (sum : above + base ^ length * final = (carry + term) / base + rest) :
    (carry + term) % base + base * above + base ^ (length + 1) * final =
      carry + (term + base * rest) := by
  have split := Nat.mod_add_div (carry + term) base
  have scaled := congrArg (base * ·) sum
  simp only [Nat.mul_add] at scaled
  rw [Nat.pow_succ', Nat.mul_assoc]
  omega

/-- The loops for operands with a sign are three sums with a carry at once: of the terms of each
operand, and of the operation on the digits of these two. -/
theorem rounds_signedRound (bitwise : BitByBit op bit)
    (jtermSmall : ∀ digit < config.digBase, jterm digit < 2 * config.digBase)
    (ktermSmall : ∀ digit < config.digBase, kterm digit < 2 * config.digBase)
    (imaskSmall : imask < config.digBase) (iSmall : carry.i < config.digBase)
    (jSmall : carry.j < config.digBase) (kSmall : carry.k < config.digBase)
    (jdigsAre : AreDigits config.digBase jdigs) (kdigsAre : AreDigits config.digBase kdigs) :
    ∃ final outs xs ys,
      roundsOn (signedRound config op jterm kterm imask) carry jdigs kdigs = some (final, outs) ∧
      (AreDigits config.digBase xs ∧ AreDigits config.digBase ys ∧ AreDigits config.digBase outs) ∧
      (xs.length = jdigs.length ∧ ys.length = jdigs.length ∧ final.i < config.digBase) ∧
      Nat.ofDigits config.digBase xs + config.digBase ^ jdigs.length * final.j =
        carry.j + Nat.ofDigits config.digBase (jdigs.map jterm) ∧
      Nat.ofDigits config.digBase ys + config.digBase ^ jdigs.length * final.k =
        carry.k + Nat.ofDigits config.digBase ((kdigs.takeD jdigs.length 0).map kterm) ∧
      Nat.ofDigits config.digBase outs + config.digBase ^ jdigs.length * final.i =
        carry.i + Nat.ofDigits config.digBase
          (List.zipWith (fun x y => op x y ^^^ imask) xs ys) := by
  induction jdigs generalizing carry kdigs with
  | nil => exact ⟨carry, [], [], [], rfl, by simp, ⟨rfl, rfl, iSmall⟩, by simp, by simp, by simp⟩
  | cons jdigit jdigs ih =>
    rw [areDigits_cons] at jdigsAre
    have kdigit : kdigs.headD 0 < config.digBase := by
      cases kdigs with
      | nil => exact config.digBase_pos
      | cons kdigit kdigs => exact (areDigits_cons.mp kdigsAre).1
    have restAre : AreDigits config.digBase kdigs.tail :=
      fun digit member => kdigsAre digit (mem_of_mem_tail member)
    obtain ⟨jExact, jNext⟩ := column_spec jSmall (jtermSmall _ jdigsAre.1)
    obtain ⟨kExact, kNext⟩ := column_spec kSmall (ktermSmall _ kdigit)
    generalize isJ : carry.j + jterm jdigit = columnj at jExact jNext
    generalize isK : carry.k + kterm (kdigs.headD 0) = columnk at kExact kNext
    have xSmall := Nat.mod_lt columnj config.digBase_pos
    have ySmall := Nat.mod_lt columnk config.digBase_pos
    have lowBits : (op columnj columnk ^^^ imask) % config.digBase =
        op (columnj % config.digBase) (columnk % config.digBase) ^^^ imask := by
      rw [MpzConfig.digBase, Nat.xor_mod_two_pow, bitwise.mod_two_pow, ← MpzConfig.digBase,
        Nat.mod_eq_of_lt imaskSmall]
    have termSmall : op (columnj % config.digBase) (columnk % config.digBase) ^^^ imask <
        config.digBase := Nat.xor_lt_two_pow (bitwise.lt_two_pow xSmall ySmall) imaskSmall
    obtain ⟨iExact, iNext⟩ := column_spec iSmall (termSmall.trans (by omega))
    have headK : kdigs.head?.getD 0 = kdigs.headD 0 := List.headD_eq_head?_getD.symm
    generalize isI : carry.i + (op (columnj % config.digBase) (columnk % config.digBase) ^^^
      imask) = columni at iExact iNext
    have step : signedRound config op jterm kterm imask carry jdigit kdigs.head? =
        some (⟨columni / config.digBase, columnj / config.digBase, columnk / config.digBase⟩,
          columni % config.digBase) := by
      simp only [signedRound, headK, isJ, isK, jExact, kExact, lowBits, isI, iExact]
    obtain ⟨final, outs, xs, ys, walks, ⟨xsAre, ysAre, outsAre⟩, ⟨xsLength, ysLength, finalSmall⟩,
      sumJ, sumK, sumI⟩ := @ih
        ⟨columni / config.digBase, columnj / config.digBase, columnk / config.digBase⟩ kdigs.tail
        iNext jNext kNext jdigsAre.2 restAre
    refine ⟨final, columni % config.digBase :: outs, columnj % config.digBase :: xs,
      columnk % config.digBase :: ys, ?_, ?_, ⟨by rw [length_cons, xsLength]; rfl,
      by rw [length_cons, ysLength]; rfl, finalSmall⟩, ?_, ?_, ?_⟩
    · rw [roundsOn, step]
      simp only [bind_eq_bind, bind_some, walks]
    · simp only [areDigits_cons]
      exact ⟨⟨xSmall, xsAre⟩, ⟨ySmall, ysAre⟩, Nat.mod_lt _ config.digBase_pos, outsAre⟩
    · subst isJ
      rw [map_cons, Nat.ofDigits_cons, Nat.ofDigits_cons, length_cons]
      exact sum_cons sumJ
    · subst isK
      rw [length_cons, takeD_succ, headK, map_cons, Nat.ofDigits_cons,
        Nat.ofDigits_cons]
      exact sum_cons sumK
    · subst isI
      rw [zipWith_cons_cons, Nat.ofDigits_cons, Nat.ofDigits_cons, length_cons]
      exact sum_cons sumI

theorem digMask_lt : digMask config < config.digBase := by
  have := config.digBase_pos
  unfold digMask
  omega

theorem mask_lt (carry : Nat) : mask config carry < config.digBase := by
  unfold mask
  split_ifs
  · exact config.digBase_pos
  · exact digMask_lt

theorem ofDigits_map_mask {digits : List Nat} (sign : Bool)
    (digitsAre : AreDigits config.digBase digits) :
    Nat.ofDigits config.digBase (digits.map (· ^^^ mask config sign.toNat)) =
      if sign then complement (config.digSize * digits.length) (Nat.ofDigits config.digBase digits)
      else Nat.ofDigits config.digBase digits := by
  cases sign with
  | false => simp [mask]
  | true =>
    have inverted : digits.map (· ^^^ mask config true.toNat) =
        digits.map (complement config.digSize) :=
      map_congr_left fun digit member => xor_ones (digitsAre digit member)
    rw [inverted, if_pos rfl]
    exact ofDigits_map_complement (config.digSize_pos) digitsAre

theorem ofDigits_map_add_mask (digits : List Nat) :
    Nat.ofDigits config.digBase (digits.map (· + digMask config)) + 1 =
      Nat.ofDigits config.digBase digits + config.digBase ^ digits.length := by
  have positive := config.digBase_pos
  induction digits with
  | nil => rfl
  | cons digit digits ih =>
    have scaled := congrArg (config.digBase * ·) ih
    simp only [Nat.mul_add, Nat.mul_one] at scaled
    rw [map_cons, Nat.ofDigits_cons, Nat.ofDigits_cons, length_cons, Nat.pow_succ',
      digMask]
    unfold digMask at scaled
    omega

theorem no_carry {size low high sum : Nat} (split : low + size * high = sum) (small : sum < size) :
    high = 0 ∧ low = sum := by
  have none_ : high = 0 := by
    by_contra some_
    have atLeast := Nat.le_mul_of_pos_right size (Nat.pos_of_ne_zero some_)
    omega
  rw [none_, Nat.mul_zero] at split
  exact ⟨none_, split⟩

theorem one_carry {size low high value : Nat} (split : low + size * high = value + size)
    (small : low < size) (valueSmall : value < size) : low = value := by
  have same := congrArg (· % size) split
  simpa [Nat.mod_eq_of_lt small, Nat.mod_eq_of_lt valueSmall] using same

theorem mask_column {digits xs : List Nat} {sign : Bool} {final : Nat}
    (digitsAre : AreDigits config.digBase digits)
    (nonzero : sign = true → Nat.ofDigits config.digBase digits ≠ 0)
    (sum : Nat.ofDigits config.digBase xs + config.digBase ^ digits.length * final =
      sign.toNat + Nat.ofDigits config.digBase (digits.map (· ^^^ mask config sign.toNat))) :
    Nat.ofDigits config.digBase xs =
      twos (config.digSize * digits.length) sign (Nat.ofDigits config.digBase digits) := by
  have small := digitsAre.lt_pow config.one_lt_digBase
  rw [MpzConfig.digBase_pow] at small
  rw [ofDigits_map_mask sign digitsAre, toNat_add_complement small, MpzConfig.digBase_pow] at sum
  exact (no_carry sum (twos_lt small nonzero)).2

/-- The digits of an operand of `mpn_xor_neg`: one less for a negative number, which is the
complement of its two's complement. -/
theorem add_mask_column {digits xs : List Nat} {sign : Bool} {final : Nat}
    (digitsAre : AreDigits config.digBase digits) (xsAre : AreDigits config.digBase xs)
    (length : xs.length = digits.length)
    (nonzero : sign = true → Nat.ofDigits config.digBase digits ≠ 0)
    (sum : Nat.ofDigits config.digBase xs + config.digBase ^ digits.length * final =
      (!sign).toNat + Nat.ofDigits config.digBase (digits.map (· + digMask config))) :
    Nat.ofDigits config.digBase xs =
      if sign then complement (config.digSize * digits.length)
        (twos (config.digSize * digits.length) sign (Nat.ofDigits config.digBase digits))
      else twos (config.digSize * digits.length) sign (Nat.ofDigits config.digBase digits) := by
  have small := digitsAre.lt_pow config.one_lt_digBase
  have xsSmall := xsAre.lt_pow config.one_lt_digBase
  have total := @ofDigits_map_add_mask config digits
  rw [length] at xsSmall
  cases sign with
  | false =>
    refine one_carry (sum.trans ?_) xsSmall small
    rw [Bool.not_false, Bool.toNat_true, Nat.add_comm, total]
    rfl
  | true =>
    have some_ := nonzero rfl
    rw [if_pos rfl, complement_twos (config.digBase_pow _ ▸ small)]
    refine one_carry (sum.trans ?_) xsSmall (by omega)
    rw [Bool.not_true, Bool.toNat_false]
    omega

theorem ofDigits_carried {outs : List Nat} {final : Nat} (outsAre : AreDigits config.digBase outs)
    (small : final < config.digBase) :
    AreDigits config.digBase (outs ++ carried config final) ∧
      Nat.ofDigits config.digBase (outs ++ carried config final) =
        Nat.ofDigits config.digBase outs + config.digBase ^ outs.length * final := by
  rw [carried]
  split_ifs with some_
  · rw [config.store_of_lt small, ofDigits_concat, areDigits_append]
    exact ⟨⟨outsAre, by simpa using small⟩, rfl⟩
  · rw [not_not.mp some_, append_nil, Nat.mul_zero, Nat.add_zero]
    exact ⟨outsAre, rfl⟩

/-- The operands of a loop for numbers with a sign: digits and signs, where zero has no sign. -/
structure Operands (config : MpzConfig) (jdigs kdigs : List Nat) (jneg kneg : Bool) : Prop where
  j : AreDigits config.digBase jdigs
  k : AreDigits config.digBase kdigs
  shorter : kdigs.length ≤ jdigs.length
  jNonzero : jneg = true → Nat.ofDigits config.digBase jdigs ≠ 0
  kNonzero : kneg = true → Nat.ofDigits config.digBase kdigs ≠ 0

/-- The magnitude of the result of a bitwise operation. -/
def magnitudeOf (config : MpzConfig) (op : Nat → Nat → Nat) (bit : Bool → Bool → Bool)
    (length : Nat) (jneg kneg : Bool) (j k : Nat) : Nat :=
  twos (config.digSize * length) (bit jneg kneg)
    (op (twos (config.digSize * length) jneg j) (twos (config.digSize * length) kneg k))

theorem takeD_spec {count : Nat} (kdigsAre : AreDigits config.digBase kdigs)
    (shorter : kdigs.length ≤ count) :
    AreDigits config.digBase (kdigs.takeD count 0) ∧
      Nat.ofDigits config.digBase (kdigs.takeD count 0) = Nat.ofDigits config.digBase kdigs := by
  induction count generalizing kdigs with
  | zero =>
    obtain rfl := eq_nil_of_length_eq_zero (Nat.le_zero.mp shorter)
    exact ⟨areDigits_nil, rfl⟩
  | succ count ih =>
    rw [takeD_succ, areDigits_cons, Nat.ofDigits_cons]
    cases kdigs with
    | nil =>
      obtain ⟨are, value⟩ := ih areDigits_nil (Nat.zero_le _)
      rw [tail_nil, value]
      exact ⟨⟨config.digBase_pos, are⟩, rfl⟩
    | cons kdigit kdigs =>
      rw [areDigits_cons] at kdigsAre
      obtain ⟨are, value⟩ := ih kdigsAre.2 (Nat.le_of_succ_le_succ shorter)
      rw [tail_cons, value, Nat.ofDigits_cons]
      exact ⟨⟨kdigsAre.1, are⟩, rfl⟩

variable {jneg kneg : Bool}

theorem Operands.small (operands : Operands config jdigs kdigs jneg kneg) :
    Nat.ofDigits config.digBase jdigs < 2 ^ (config.digSize * jdigs.length) ∧
      Nat.ofDigits config.digBase kdigs < 2 ^ (config.digSize * jdigs.length) := by
  have jSmall := operands.j.lt_pow config.one_lt_digBase
  have kSmall := operands.k.lt_pow config.one_lt_digBase
  have longer : config.digBase ^ kdigs.length ≤ config.digBase ^ jdigs.length :=
    Nat.pow_le_pow_right config.digBase_pos operands.shorter
  rw [← MpzConfig.digBase_pow]
  exact ⟨jSmall, kSmall.trans_le longer⟩

/-- The loops with masks compute the magnitude of the result. -/
theorem rounds_masked (bitwise : BitByBit op bit)
    (operands : Operands config jdigs kdigs jneg kneg) :
    ∃ final outs, roundsOn (signedRound config op (· ^^^ mask config jneg.toNat)
        (· ^^^ mask config kneg.toNat) (mask config (bit jneg kneg).toNat))
          ⟨(bit jneg kneg).toNat, jneg.toNat, kneg.toNat⟩ jdigs kdigs = some (final, outs) ∧
      AreDigits config.digBase outs ∧ final.i < config.digBase ∧
      Nat.ofDigits config.digBase outs + config.digBase ^ jdigs.length * final.i =
        magnitudeOf config op bit jdigs.length jneg kneg (Nat.ofDigits config.digBase jdigs)
          (Nat.ofDigits config.digBase kdigs) := by
  have termSmall (sign : Bool) (digit : Nat) (digitSmall : digit < config.digBase) :
      digit ^^^ mask config sign.toNat < 2 * config.digBase := by
    have := Nat.xor_lt_two_pow digitSmall (@mask_lt config sign.toNat)
    rw [← MpzConfig.digBase] at this
    omega
  have bitSmall (sign : Bool) : sign.toNat < config.digBase := by
    have := config.one_lt_digBase
    cases sign <;> simp <;> omega
  obtain ⟨final, outs, xs, ys, walks, ⟨xsAre, ysAre, outsAre⟩, ⟨xsLength, ysLength, finalSmall⟩,
    sumJ, sumK, sumI⟩ := @rounds_signedRound config op bit _ _ _
      ⟨(bit jneg kneg).toNat, jneg.toNat, kneg.toNat⟩ jdigs kdigs bitwise (termSmall jneg)
      (termSmall kneg) (mask_lt (bit jneg kneg).toNat) (bitSmall _) (bitSmall jneg) (bitSmall kneg)
      operands.j operands.k
  obtain ⟨jSmall, kSmall⟩ := operands.small
  obtain ⟨paddedAre, padded⟩ := takeD_spec operands.k operands.shorter
  have isX := mask_column operands.j operands.jNonzero sumJ
  have isY : Nat.ofDigits config.digBase ys =
      twos (config.digSize * jdigs.length) kneg (Nat.ofDigits config.digBase kdigs) := by
    have paddedLength := takeD_length jdigs.length kdigs 0
    have column := @mask_column config (kdigs.takeD jdigs.length 0) ys kneg final.k paddedAre
      (padded ▸ operands.kNonzero) (by rw [paddedLength]; exact sumK)
    rwa [paddedLength, padded] at column
  have zipLength : (zipWith op xs ys).length = jdigs.length := by
    rw [length_zipWith, xsLength, ysLength, Nat.min_self]
  have columns : zipWith (fun x y => op x y ^^^ mask config (bit jneg kneg).toNat) xs ys =
      (zipWith op xs ys).map (· ^^^ mask config (bit jneg kneg).toNat) := by
    rw [map_zipWith]
  have result : Nat.ofDigits config.digBase (zipWith op xs ys) =
      op (Nat.ofDigits config.digBase xs) (Nat.ofDigits config.digBase ys) :=
    bitwise.ofDigits_zipWith xsAre ysAre (xsLength.trans ysLength.symm)
  refine ⟨final, outs, walks, outsAre, finalSmall, ?_⟩
  rw [sumI, columns,
    ofDigits_map_mask _ (bitwise.areDigits_zipWith xsAre ysAre), zipLength, result, isX, isY]
  exact toNat_add_complement (bitwise.lt_two_pow (twos_lt jSmall operands.jNonzero)
    (twos_lt kSmall operands.kNonzero))

theorem xor_of_twos {bits j k : Nat} (jSmall : j < 2 ^ bits) (kSmall : k < 2 ^ bits) :
    (jneg != kneg).toNat + ((if jneg then complement bits j else j) ^^^
        (if kneg then complement bits k else k)) =
      twos bits (jneg ^^ kneg) (j ^^^ k) := by
  have small := Nat.xor_lt_two_pow jSmall kSmall
  cases jneg <;> cases kneg
  · simp [twos]
  · have swapped : j ^^^ complement bits k = complement bits (j ^^^ k) := by
      rw [Nat.xor_comm, complement_xor kSmall jSmall, Nat.xor_comm]
    have negative := @toNat_add_complement bits (j ^^^ k) true small
    simpa [swapped] using negative
  · have negative := @toNat_add_complement bits (j ^^^ k) true small
    simpa [complement_xor jSmall kSmall] using negative
  · simp [twos, complement_xor_complement jSmall kSmall]

/-- The loop of `mpn_xor_neg` computes the magnitude of the result. -/
theorem rounds_xorNeg (operands : Operands config jdigs kdigs jneg kneg) :
    ∃ final outs, roundsOn (signedRound config (· ^^^ ·) (· + digMask config) (· + digMask config) 0)
          ⟨(jneg != kneg).toNat, (!jneg).toNat, (!kneg).toNat⟩ jdigs kdigs = some (final, outs) ∧
      AreDigits config.digBase outs ∧ final.i < config.digBase ∧
      Nat.ofDigits config.digBase outs + config.digBase ^ jdigs.length * final.i =
        magnitudeOf config (· ^^^ ·) (· ^^ ·) jdigs.length jneg kneg
          (Nat.ofDigits config.digBase jdigs) (Nat.ofDigits config.digBase kdigs) := by
  have termSmall (digit : Nat) (digitSmall : digit < config.digBase) :
      digit + digMask config < 2 * config.digBase := by
    have := @digMask_lt config
    omega
  have bitSmall (sign : Bool) : sign.toNat < config.digBase := by
    have := config.one_lt_digBase
    cases sign <;> simp <;> omega
  obtain ⟨final, outs, xs, ys, walks, ⟨xsAre, ysAre, outsAre⟩, ⟨xsLength, ysLength, finalSmall⟩,
    sumJ, sumK, sumI⟩ := @rounds_signedRound config (· ^^^ ·) (· ^^ ·) _ _ 0
      ⟨(jneg != kneg).toNat, (!jneg).toNat, (!kneg).toNat⟩ jdigs kdigs bitByBit_xor termSmall
      termSmall config.digBase_pos (bitSmall _) (bitSmall _) (bitSmall _) operands.j operands.k
  obtain ⟨jSmall, kSmall⟩ := operands.small
  obtain ⟨paddedAre, padded⟩ := takeD_spec operands.k operands.shorter
  have isX := add_mask_column operands.j xsAre xsLength operands.jNonzero sumJ
  have isY : Nat.ofDigits config.digBase ys =
      if kneg then complement (config.digSize * jdigs.length)
        (twos (config.digSize * jdigs.length) kneg (Nat.ofDigits config.digBase kdigs))
      else twos (config.digSize * jdigs.length) kneg (Nat.ofDigits config.digBase kdigs) := by
    have paddedLength := takeD_length jdigs.length kdigs 0
    have column := @add_mask_column config (kdigs.takeD jdigs.length 0) ys kneg final.k paddedAre
      ysAre (by rw [paddedLength, ysLength]) (padded ▸ operands.kNonzero)
      (by rw [paddedLength]; exact sumK)
    rwa [paddedLength, padded] at column
  have columns : zipWith (fun x y => x ^^^ y ^^^ 0) xs ys =
      zipWith (· ^^^ ·) xs ys := by
    simp only [Nat.xor_zero]
  have result : Nat.ofDigits config.digBase (zipWith (· ^^^ ·) xs ys) =
      Nat.ofDigits config.digBase xs ^^^ Nat.ofDigits config.digBase ys :=
    bitByBit_xor.ofDigits_zipWith xsAre ysAre (xsLength.trans ysLength.symm)
  refine ⟨final, outs, walks, outsAre, finalSmall, ?_⟩
  rw [sumI, columns, result, isX, isY]
  exact xor_of_twos (twos_lt jSmall operands.jNonzero) (twos_lt kSmall operands.kNonzero)

theorem rounds_plainRound {op : Nat → Nat → Nat} :
    roundsOn (plainRound op) () jdigs kdigs =
      some ((), List.zipWith op jdigs (kdigs.takeD jdigs.length 0)) := by
  induction jdigs generalizing kdigs with
  | nil => rfl
  | cons jdigit jdigs ih =>
    have headK : kdigs.head?.getD 0 = kdigs.headD 0 := List.headD_eq_head?_getD.symm
    rw [roundsOn, plainRound]
    simp only [bind_eq_bind, bind_some, ih, headK]
    rw [length_cons, takeD_succ, zipWith_cons_cons, headK]

end Loops

/-! ## What the functions on digits leave -/

section Fill

variable {config} {op : Nat → Nat → Nat} {bit : Bool → Bool → Bool} {jdigs kdigs block : List Nat}
  {jdig kdig : Source Nat} {jneg kneg : Bool} {reserve : Nat}

/-- The digits of the magnitude of a result. -/
def digitsOf (config : MpzConfig) (op : Nat → Nat → Nat) (bit : Bool → Bool → Bool)
    (jdigs kdigs : List Nat) (jneg kneg : Bool) : List Nat :=
  Nat.digits config.digBase (magnitudeOf config op bit jdigs.length jneg kneg
    (Nat.ofDigits config.digBase jdigs) (Nat.ofDigits config.digBase kdigs))

theorem carried_fills {round : Carries → Nat → Option Nat → Option (Carries × Nat)}
    {carry final : Carries} {outs : List Nat} {magnitude : Nat} {negative : Bool}
    (walks : roundsOn round carry jdigs kdigs = some (final, outs))
    (outsAre : AreDigits config.digBase outs) (small : final.i < config.digBase)
    (value : Nat.ofDigits config.digBase outs + config.digBase ^ jdigs.length * final.i = magnitude)
    (noCarry : negative = false → magnitude < config.digBase ^ jdigs.length)
    (jHolds : jdigs <+: jdig.cells block) (kHolds : kdigs <+: kdig.cells block)
    (fits : jdigs.length + negative.toNat ≤ reserve) (inside : reserve ≤ block.length) :
    Fills reserve block (Nat.digits config.digBase magnitude)
      ((pass round jdig kdig kdigs.length jdigs.length 0 carry block).bind fun done =>
        (storeCarry config jdigs.length done.1.i done.2).bind fun done =>
          some (mpnRemoveTrailingZeros done.2 done.1, done.2)) := by
  have length := length_of_rounds walks
  obtain ⟨are, carriedValue⟩ := ofDigits_carried outsAre small
  have room : (outs ++ carried config final.i).length ≤ reserve := by
    rw [length_append, length]
    refine (Nat.add_le_add_left ?_ _).trans fits
    unfold carried
    split_ifs with some_
    · cases negative with
      | true => exact Nat.le_refl _
      | false => exact absurd (no_carry value (noCarry rfl)).1 some_
    · exact Nat.zero_le _
  rw [pass_of_rounds walks jHolds kHolds (by omega), bind_some, ← length,
    storeCarry_eq (room.trans inside), bind_some, ← value, ← length, ← carriedValue,
    ← trimZeros_eq_digits config.one_lt_digBase are]
  exact fills_of_trimmed room inside

theorem magnitudeOf_lt (bitwise : BitByBit op bit) (operands : Operands config jdigs kdigs jneg kneg)
    (positive : bit jneg kneg = false) :
    magnitudeOf config op bit jdigs.length jneg kneg (Nat.ofDigits config.digBase jdigs)
      (Nat.ofDigits config.digBase kdigs) < config.digBase ^ jdigs.length := by
  obtain ⟨jSmall, kSmall⟩ := operands.small
  rw [magnitudeOf, positive, MpzConfig.digBase_pow]
  exact bitwise.lt_two_pow (twos_lt jSmall operands.jNonzero) (twos_lt kSmall operands.kNonzero)

section

variable (operands : Operands config jdigs kdigs jneg kneg)

include operands

theorem mpnAndNeg_fills (jHolds : jdigs <+: jdig.cells block) (kHolds : kdigs <+: kdig.cells block)
    (fits : jdigs.length + (jneg && kneg).toNat ≤ reserve) (inside : reserve ≤ block.length) :
    Fills reserve block (digitsOf config (· &&& ·) (· && ·) jdigs kdigs jneg kneg)
      (mpnAndNeg config block jdig jdigs.length kdig kdigs.length
        ⟨(jneg && kneg).toNat, jneg.toNat, kneg.toNat⟩) := by
  obtain ⟨final, outs, walks, are, small, value⟩ := rounds_masked bitByBit_and operands
  exact carried_fills walks are small value (magnitudeOf_lt bitByBit_and operands) jHolds kHolds
    fits inside

theorem mpnXorNeg_fills (jHolds : jdigs <+: jdig.cells block) (kHolds : kdigs <+: kdig.cells block)
    (fits : jdigs.length + (jneg ^^ kneg).toNat ≤ reserve) (inside : reserve ≤ block.length) :
    Fills reserve block (digitsOf config (· ^^^ ·) (· ^^ ·) jdigs kdigs jneg kneg)
      (mpnXorNeg config block jdig jdigs.length kdig kdigs.length
        ⟨(jneg != kneg).toNat, (!jneg).toNat, (!kneg).toNat⟩) := by
  obtain ⟨final, outs, walks, are, small, value⟩ := rounds_xorNeg operands
  exact carried_fills walks are small value (magnitudeOf_lt bitByBit_xor operands) jHolds kHolds
    fits inside

/-- The low bits of a negative operand are not zero, and so the magnitude of a disjunction has no
more digits than the operands. -/
theorem magnitudeOf_or_lt :
    magnitudeOf config (· ||| ·) (· || ·) jdigs.length jneg kneg
      (Nat.ofDigits config.digBase jdigs) (Nat.ofDigits config.digBase kdigs) <
        config.digBase ^ jdigs.length := by
  obtain ⟨jSmall, kSmall⟩ := operands.small
  cases negative : (jneg || kneg) with
  | false => exact magnitudeOf_lt bitByBit_or operands negative
  | true =>
    have left := twos_lt jSmall operands.jNonzero
    have right := twos_lt kSmall operands.kNonzero
    rw [magnitudeOf, negative, MpzConfig.digBase_pow]
    refine twos_lt (bitByBit_or.lt_two_pow left right) fun _ none_ => ?_
    obtain ⟨jNone, kNone⟩ := Nat.or_eq_zero_iff.mp none_
    unfold twos at jNone kNone
    cases jneg with
    | true =>
      rw [if_pos rfl] at jNone
      omega
    | false =>
      rw [Bool.false_or] at negative
      rw [if_pos negative] at kNone
      omega

theorem mpnOrNeg_fills (jHolds : jdigs <+: jdig.cells block) (kHolds : kdigs <+: kdig.cells block)
    (fits : jdigs.length ≤ reserve) (inside : reserve ≤ block.length) :
    Fills reserve block (digitsOf config (· ||| ·) (· || ·) jdigs kdigs jneg kneg)
      (mpnOrNeg config block jdig jdigs.length kdig kdigs.length
        ⟨(jneg || kneg).toNat, jneg.toNat, kneg.toNat⟩) := by
  obtain ⟨final, outs, walks, are, small, value⟩ := rounds_masked bitByBit_or operands
  have length := length_of_rounds walks
  obtain ⟨none_, same⟩ := no_carry value (magnitudeOf_or_lt operands)
  rw [mpnOrNeg, bind_eq_bind, pass_of_rounds walks jHolds kHolds (fits.trans inside),
    bind_some, if_pos none_, digitsOf, ← same,
    ← trimZeros_eq_digits config.one_lt_digBase are, ← length]
  exact fills_of_trimmed (length ▸ fits) inside

end

theorem digitsOf_plain (bitwise : BitByBit op bit) :
    digitsOf config op bit jdigs kdigs false false = Nat.digits config.digBase
      (op (Nat.ofDigits config.digBase jdigs) (Nat.ofDigits config.digBase kdigs)) := by
  rw [digitsOf, magnitudeOf, bitwise.zero]
  rfl

theorem plain_spec (bitwise : BitByBit op bit) (jdigsAre : AreDigits config.digBase jdigs)
    (kdigsAre : AreDigits config.digBase kdigs) (shorter : kdigs.length ≤ jdigs.length) :
    AreDigits config.digBase (List.zipWith op jdigs (kdigs.takeD jdigs.length 0)) ∧
      Nat.ofDigits config.digBase (List.zipWith op jdigs (kdigs.takeD jdigs.length 0)) =
        op (Nat.ofDigits config.digBase jdigs) (Nat.ofDigits config.digBase kdigs) := by
  obtain ⟨paddedAre, padded⟩ := takeD_spec kdigsAre shorter
  refine ⟨bitwise.areDigits_zipWith jdigsAre paddedAre, ?_⟩
  rw [← padded]
  exact bitwise.ofDigits_zipWith jdigsAre paddedAre (takeD_length _ _ _).symm

theorem mpnXor_fills (operands : Operands config jdigs kdigs false false)
    (jHolds : jdigs <+: jdig.cells block) (kHolds : kdigs <+: kdig.cells block)
    (fits : jdigs.length ≤ reserve) (inside : reserve ≤ block.length) :
    Fills reserve block (digitsOf config (· ^^^ ·) (· ^^ ·) jdigs kdigs false false)
      (mpnXor block jdig jdigs.length kdig kdigs.length) := by
  have walks := @rounds_plainRound jdigs kdigs (· ^^^ ·)
  have length := length_of_rounds walks
  obtain ⟨are, value⟩ := plain_spec bitByBit_xor operands.j operands.k operands.shorter
  rw [mpnXor, bind_eq_bind, pass_of_rounds walks jHolds kHolds (fits.trans inside),
    bind_some, digitsOf_plain bitByBit_xor, ← value,
    ← trimZeros_eq_digits config.one_lt_digBase are]
  have fills := fills_of_trimmed (length ▸ fits) inside
  rwa [length] at fills

theorem mpnOr_fills (operands : Operands config jdigs kdigs false false) (normal : Normal jdigs)
    (jHolds : jdigs <+: jdig.cells block) (kHolds : kdigs <+: kdig.cells block)
    (fits : jdigs.length ≤ reserve) (inside : reserve ≤ block.length) :
    Fills reserve block (digitsOf config (· ||| ·) (· || ·) jdigs kdigs false false)
      (mpnOr block jdig jdigs.length kdig kdigs.length) := by
  have walks := @rounds_plainRound jdigs kdigs (· ||| ·)
  have length := length_of_rounds walks
  obtain ⟨are, value⟩ := plain_spec bitByBit_or operands.j operands.k operands.shorter
  have outNormal : Normal (zipWith (· ||| ·) jdigs (kdigs.takeD jdigs.length 0)) := by
    by_cases empty : jdigs = []
    · rw [empty]
      exact normal_nil
    · refine normal_of_pow_le config.one_lt_digBase are ?_
      rw [value, length]
      exact (normal.pow_le empty).trans Nat.left_le_or
  rw [mpnOr, bind_eq_bind, pass_of_rounds walks jHolds kHolds (fits.trans inside),
    bind_some, digitsOf_plain bitByBit_or, ← value,
    outNormal.digits_eq config.one_lt_digBase are]
  have fills := fills_of_front (length ▸ fits) inside
  rwa [length] at fills

theorem mpnAnd_fills (operands : Operands config jdigs kdigs false false)
    (jHolds : jdigs <+: jdig.cells block) (kHolds : kdigs <+: kdig.cells block)
    (fits : jdigs.length ≤ reserve) (inside : reserve ≤ block.length) :
    Fills reserve block (digitsOf config (· &&& ·) (· && ·) jdigs kdigs false false)
      (mpnAnd block jdig kdig kdigs.length) := by
  have short : (jdigs.take kdigs.length).length = kdigs.length := by
    rw [length_take, Nat.min_eq_left operands.shorter]
  have walks := @rounds_plainRound (jdigs.take kdigs.length) kdigs (· &&& ·)
  have length := length_of_rounds walks
  have shorter := operands.shorter
  obtain ⟨are, value⟩ := plain_spec bitByBit_and (operands.j.take kdigs.length) operands.k
    (by rw [short])
  have same : Nat.ofDigits config.digBase (jdigs.take kdigs.length) &&&
      Nat.ofDigits config.digBase kdigs =
        Nat.ofDigits config.digBase jdigs &&& Nat.ofDigits config.digBase kdigs := by
    have small := operands.k.lt_pow config.one_lt_digBase
    rw [← Nat.ofDigits_mod_pow_eq_ofDigits_take _ config.digBase_pos _ operands.j]
    rw [MpzConfig.digBase_pow] at small ⊢
    have cut := @Nat.and_mod_two_pow (Nat.ofDigits config.digBase jdigs)
      (Nat.ofDigits config.digBase kdigs) (config.digSize * kdigs.length)
    rw [Nat.mod_eq_of_lt small, Nat.mod_eq_of_lt (Nat.and_lt_two_pow _ small)] at cut
    exact cut.symm
  have passed := pass_of_rounds walks (( take_prefix _ _).trans jHolds) kHolds (by omega)
  rw [short] at passed
  rw [mpnAnd, bind_eq_bind, passed, bind_some, digitsOf_plain bitByBit_and, ← same,
    ← value, ← trimZeros_eq_digits config.one_lt_digBase are]
  have fills := fills_of_trimmed
    (length.trans_le (by omega : (jdigs.take kdigs.length).length ≤ reserve)) inside
  rw [length, short] at fills
  simpa only [short] using fills

end Fill

/-! ## What the functions on big integers compute -/

/-- A bitwise operation on big integers: the one result that every variant and every choice of
blocks leads to. -/
def bitwiseResult (config : MpzConfig) (op : Nat → Nat → Nat) (bit : Bool → Bool → Bool)
    (a b : MpzT) : MpzT :=
  ⟨bit a.neg b.neg, Nat.digits config.digBase (magnitudeOf config op bit
    (max a.dig.length b.dig.length) a.neg b.neg (Nat.ofDigits config.digBase a.dig)
      (Nat.ofDigits config.digBase b.dig))⟩

section Exact

variable {config} {op : Nat → Nat → Nat} {bit : Bool → Bool → Bool} {fill : Nat → Nat}
  {dest : MpzBuf} {lhs rhs : Arg} {a b : MpzT}

theorem value_eq_fromTwos {bits : Nat} (z : MpzT)
    (small : Nat.ofDigits config.digBase z.dig ≤ 2 ^ bits) :
    z.value config = fromTwos bits z.neg (twos bits z.neg (Nat.ofDigits config.digBase z.dig)) := by
  have atMost : twos bits z.neg (Nat.ofDigits config.digBase z.dig) ≤ 2 ^ bits := by
    unfold twos
    split_ifs <;> omega
  rw [fromTwos_eq atMost, twos_twos small, MpzT.value]

theorem canonical_nonzero (canonical : Canonical config a) (negative : a.neg = true) :
    Nat.ofDigits config.digBase a.dig ≠ 0 := fun zero =>
  canonical.sign negative ((canonical.normal.eq_nil_iff config.one_lt_digBase).mpr zero)

theorem canonical_small {count : Nat} (canonical : Canonical config a)
    (shorter : a.dig.length ≤ count) :
    Nat.ofDigits config.digBase a.dig < 2 ^ (config.digSize * count) := by
  rw [← MpzConfig.digBase_pow]
  exact (canonical.digits.lt_pow config.one_lt_digBase).trans_le
    (Nat.pow_le_pow_right config.digBase_pos shorter)

theorem canonical_digits {neg : Bool} {magnitude : Nat} (nonzero : neg = true → magnitude ≠ 0) :
    Canonical config ⟨neg, Nat.digits config.digBase magnitude⟩ := by
  have formed := @setLoop_wellFormed config neg magnitude
  rw [setLoop_eq] at formed
  exact ⟨formed.digits, formed.normal, fun negative none_ =>
    nonzero negative (Nat.digits_eq_nil_iff_eq_zero.mp none_)⟩

/-- The result is the operation on the bits of two's complement, which go on without end, and it is
canonical. -/
theorem bitwiseResult_spec (bitwise : BitByBit op bit) (aCanonical : Canonical config a)
    (bCanonical : Canonical config b) :
    Canonical config (bitwiseResult config op bit a b) ∧
      ∀ i, ((bitwiseResult config op bit a b).value config).testBit i =
        bit ((a.value config).testBit i) ((b.value config).testBit i) := by
  have aSmall := canonical_small aCanonical (Nat.le_max_left a.dig.length b.dig.length)
  have bSmall := canonical_small bCanonical (Nat.le_max_right a.dig.length b.dig.length)
  have left := twos_lt aSmall (canonical_nonzero aCanonical)
  have right := twos_lt bSmall (canonical_nonzero bCanonical)
  have small := bitwise.lt_two_pow left right
  constructor
  · refine canonical_digits fun negative none_ => ?_
    rw [magnitudeOf, negative, twos, if_pos rfl] at none_
    omega
  · intro i
    have isValue : (bitwiseResult config op bit a b).value config =
        fromTwos (config.digSize * max a.dig.length b.dig.length) (bit a.neg b.neg)
          (op (twos (config.digSize * max a.dig.length b.dig.length) a.neg
            (Nat.ofDigits config.digBase a.dig))
          (twos (config.digSize * max a.dig.length b.dig.length) b.neg
            (Nat.ofDigits config.digBase b.dig))) := by
      rw [fromTwos_eq small.le, bitwiseResult, MpzT.value, Nat.ofDigits_digits]
      rfl
    rw [isValue, bitwise.testBit_fromTwos left right, value_eq_fromTwos a aSmall.le,
      value_eq_fromTwos b bSmall.le]

/-- An operand that holds a canonical big integer. -/
structure Holds (config : MpzConfig) (dest : MpzBuf) (arg : Arg) (z : MpzT) : Prop where
  inside : (arg.deref dest).len ≤ (arg.deref dest).dig.length
  same : (arg.deref dest).toMpz = z
  canonical : Canonical config z

theorem Holds.valid (holds : Holds config dest lhs a) : Valid config (lhs.deref dest) :=
  ⟨holds.inside, by rw [holds.same]; exact ⟨holds.canonical.digits, holds.canonical.normal⟩⟩

theorem Holds.withVariant (holds : Holds config dest lhs a) (optBitwise : Bool) :
    Holds { config with optBitwise := optBitwise } dest lhs a :=
  ⟨holds.inside, holds.same,
    ⟨holds.canonical.digits, holds.canonical.normal, holds.canonical.sign⟩⟩

theorem Holds.operands (first : Holds config dest lhs a) (second : Holds config dest rhs b)
    (shorter : (rhs.deref dest).len ≤ (lhs.deref dest).len) :
    Operands config (lhs.deref dest).digits (rhs.deref dest).digits (lhs.deref dest).neg
      (rhs.deref dest).neg := by
  have left := first.canonical
  have right := second.canonical
  rw [← first.same] at left
  rw [← second.same] at right
  exact ⟨left.digits, right.digits, by rw [first.valid.length, second.valid.length]; exact shorter,
    canonical_nonzero left, canonical_nonzero right⟩

/-- A destination in which the digits of a bitwise operation have been left. -/
def LeavesBitwise (config : MpzConfig) (op : Nat → Nat → Nat) (bit : Bool → Bool → Bool)
    (dest : MpzBuf) (l r : MpzBuf) (outcome : Option MpzBuf) : Prop :=
  ∃ reserve, Leaves reserve dest (bit l.neg r.neg)
    (digitsOf config op bit l.digits r.digits l.neg r.neg) outcome

theorem carry_fits {length : Nat} {sign extra : Bool} (atMost : sign = true → extra = true) :
    length + sign.toNat ≤ reserved (length + extra.toNat) := by
  refine (Nat.add_le_add_left ?_ length).trans (Nat.le_max_left _ _)
  cases sign with
  | false => exact Nat.zero_le _
  | true => rw [atMost rfl]

section

variable (free : dest.fixedDig = false) (first : Holds config dest lhs a)
  (second : Holds config dest rhs b) (shorter : (rhs.deref dest).len ≤ (lhs.deref dest).len)

include free first second shorter

theorem andOrdered_leaves :
    LeavesBitwise config (· &&& ·) (· && ·) dest (lhs.deref dest) (rhs.deref dest)
      (andOrdered config fill dest lhs rhs) := by
  have operands := first.operands second shorter
  have lLength := first.valid.length
  have rLength := second.valid.length
  have lHolds (block : List Nat) (grown : dest.dig <+: block) := lhs.digits_hold grown
  have rHolds (block : List Nat) (grown : dest.dig <+: block) := rhs.digits_hold grown
  rw [andOrdered]
  generalize lhs.deref dest = l at *
  generalize rhs.deref dest = r at *
  have plainCarry : (if l.neg = r.neg then l.neg else false) = (l.neg && r.neg) := by
    cases l.neg <;> cases r.neg <;> rfl
  rw [← lLength, ← rLength, plainCarry]
  split_ifs with variant plain
  · rw [plain.1, plain.2] at operands
    rw [LeavesBitwise, plain.1, plain.2]
    exact ⟨_, fillWith_leaves free fun block grown size =>
      mpnAnd_fills operands (lHolds block grown) (rHolds block grown) (Nat.le_max_left _ _) size⟩
  · have carry : (l.neg == r.neg) = (l.neg && r.neg) := by
      revert plain
      cases l.neg <;> cases r.neg <;> simp
    rw [carry]
    exact ⟨_, fillWith_leaves free fun block grown size =>
      mpnAndNeg_fills operands (lHolds block grown) (rHolds block grown)
        (carry_fits fun _ => rfl : _ ≤ reserved (_ + true.toNat)) size⟩
  · have atMost : (l.neg && r.neg) = true → (l.neg || r.neg) = true := by
      cases l.neg <;> simp
    exact ⟨_, fillWith_leaves free fun block grown size =>
      mpnAndNeg_fills operands (lHolds block grown) (rHolds block grown) (carry_fits atMost) size⟩

theorem orOrdered_leaves :
    LeavesBitwise config (· ||| ·) (· || ·) dest (lhs.deref dest) (rhs.deref dest)
      (orOrdered config fill dest lhs rhs) := by
  have operands := first.operands second shorter
  have lLength := first.valid.length
  have rLength := second.valid.length
  have normal := first.valid.normal
  have lHolds (block : List Nat) (grown : dest.dig <+: block) := lhs.digits_hold grown
  have rHolds (block : List Nat) (grown : dest.dig <+: block) := rhs.digits_hold grown
  rw [orOrdered]
  generalize lhs.deref dest = l at *
  generalize rhs.deref dest = r at *
  rw [← lLength, ← rLength]
  split_ifs with variant plain
  · rw [plain.1, plain.2] at operands
    rw [LeavesBitwise, plain.1, plain.2]
    exact ⟨_, fillWith_leaves free fun block grown size =>
      mpnOr_fills operands normal (lHolds block grown) (rHolds block grown) (Nat.le_max_left _ _)
        size⟩
  · have negative : (l.neg || r.neg) = true := by
      revert plain
      cases l.neg <;> cases r.neg <;> simp
    refine ⟨reserved (l.digits.length + 1), ?_⟩
    beta_reduce
    rw [negative]
    refine fillWith_leaves free fun block grown size => ?_
    have fills := mpnOrNeg_fills operands (lHolds block grown) (rHolds block grown)
      ((Nat.le_succ _).trans (Nat.le_max_left _ _) : _ ≤ reserved (l.digits.length + 1)) size
    rwa [negative] at fills
  · exact ⟨_, fillWith_leaves free fun block grown size =>
      mpnOrNeg_fills operands (lHolds block grown) (rHolds block grown)
        ((Nat.le_add_right _ _).trans (Nat.le_max_left _ _)) size⟩

theorem xorOrdered_leaves :
    LeavesBitwise config (· ^^^ ·) (· ^^ ·) dest (lhs.deref dest) (rhs.deref dest)
      (xorOrdered config fill dest lhs rhs) := by
  have operands := first.operands second shorter
  have lLength := first.valid.length
  have rLength := second.valid.length
  have lHolds (block : List Nat) (grown : dest.dig <+: block) := lhs.digits_hold grown
  have rHolds (block : List Nat) (grown : dest.dig <+: block) := rhs.digits_hold grown
  rw [xorOrdered]
  generalize lhs.deref dest = l at *
  generalize rhs.deref dest = r at *
  rw [← lLength, ← rLength]
  split_ifs with variant same plain
  · rw [← same, plain] at operands
    rw [LeavesBitwise, ← same, plain]
    exact ⟨_, fillWith_leaves free fun block grown size =>
      mpnXor_fills operands (lHolds block grown) (rHolds block grown) (Nat.le_max_left _ _) size⟩
  · rw [Bool.not_eq_false] at plain
    rw [← same, plain] at operands
    rw [LeavesBitwise, ← same, plain]
    exact ⟨_, fillWith_leaves free fun block grown size =>
      mpnXorNeg_fills operands (lHolds block grown) (rHolds block grown) (Nat.le_max_left _ _)
        size⟩
  · have differ : (l.neg ^^ r.neg) = true := by
      revert same
      cases l.neg <;> cases r.neg <;> simp
    have carry : (l.neg != r.neg) = true := differ
    refine ⟨reserved (l.digits.length + 1), ?_⟩
    beta_reduce
    rw [differ]
    refine fillWith_leaves free fun block grown size => ?_
    have fills := mpnXorNeg_fills operands (lHolds block grown) (rHolds block grown)
      (carry_fits fun _ => rfl : _ ≤ reserved (_ + true.toNat)) size
    rwa [carry] at fills
  · have atMost : (l.neg ^^ r.neg) = true → (l.neg || r.neg) = true := by
      cases l.neg <;> simp
    exact ⟨_, fillWith_leaves free fun block grown size =>
      mpnXorNeg_fills operands (lHolds block grown) (rHolds block grown) (carry_fits atMost) size⟩

end

/-- A function leaves this big integer in its destination. -/
def Computes (z : MpzT) (outcome : Option MpzBuf) : Prop :=
  ∃ result, outcome = some result ∧ result.len ≤ result.dig.length ∧ result.toMpz = z

theorem Leaves.computes {reserve : Nat} {neg : Bool} {out : List Nat} {outcome : Option MpzBuf}
    (leaves : Leaves reserve dest neg out outcome) : Computes ⟨neg, out⟩ outcome := by
  obtain ⟨result, isResult, rfl, digits, length, -⟩ := leaves
  refine ⟨result, isResult, ?_, by rw [MpzBuf.toMpz, digits]⟩
  rw [length, ← digits, MpzBuf.digits, length_take]
  exact Nat.min_le_right _ _

theorem LeavesBitwise.computes {outcome : Option MpzBuf} (first : Holds config dest lhs a)
    (second : Holds config dest rhs b) (shorter : (rhs.deref dest).len ≤ (lhs.deref dest).len)
    (leaves : LeavesBitwise config op bit dest (lhs.deref dest) (rhs.deref dest) outcome) :
    Computes (bitwiseResult config op bit a b) outcome := by
  obtain ⟨reserve, leaves⟩ := leaves
  rw [← first.valid.length, ← second.valid.length] at shorter
  have result : bitwiseResult config op bit a b =
      ⟨bit (lhs.deref dest).neg (rhs.deref dest).neg, digitsOf config op bit
        (lhs.deref dest).digits (rhs.deref dest).digits (lhs.deref dest).neg
        (rhs.deref dest).neg⟩ := by
    rw [← first.same, ← second.same, bitwiseResult, digitsOf]
    simp only [MpzBuf.toMpz_dig, MpzBuf.toMpz_neg, Nat.max_eq_left shorter]
  rw [result]
  exact leaves.computes

theorem bitwiseResult_comm (opComm : ∀ x y, op x y = op y x)
    (bitComm : ∀ sign other, bit sign other = bit other sign) (a b : MpzT) :
    bitwiseResult config op bit a b = bitwiseResult config op bit b a := by
  rw [bitwiseResult, bitwiseResult, Nat.max_comm, magnitudeOf, magnitudeOf, opComm,
    bitComm a.neg]

section

variable (free : dest.fixedDig = false) (first : Holds config dest lhs a)
  (second : Holds config dest rhs b)

include free first second

theorem mpzAndInpl_computes :
    Computes (bitwiseResult config (· &&& ·) (· && ·) a b)
      (mpzAndInpl config fill dest lhs rhs) := by
  rw [mpzAndInpl]
  split_ifs with longer
  · rw [bitwiseResult_comm Nat.and_comm Bool.and_comm]
    exact (andOrdered_leaves free second first longer.le).computes second first longer.le
  · have shorter := Nat.not_lt.mp longer
    exact (andOrdered_leaves free first second shorter).computes first second shorter

theorem mpzOrInpl_computes :
    Computes (bitwiseResult config (· ||| ·) (· || ·) a b)
      (mpzOrInpl config fill dest lhs rhs) := by
  rw [mpzOrInpl]
  split_ifs with longer
  · rw [bitwiseResult_comm Nat.or_comm Bool.or_comm]
    exact (orOrdered_leaves free second first longer.le).computes second first longer.le
  · have shorter := Nat.not_lt.mp longer
    exact (orOrdered_leaves free first second shorter).computes first second shorter

theorem mpzXorInpl_computes :
    Computes (bitwiseResult config (· ^^^ ·) (· ^^ ·) a b)
      (mpzXorInpl config fill dest lhs rhs) := by
  rw [mpzXorInpl]
  split_ifs with longer
  · rw [bitwiseResult_comm Nat.xor_comm Bool.xor_comm]
    exact (xorOrdered_leaves free second first longer.le).computes second first longer.le
  · have shorter := Nat.not_lt.mp longer
    exact (xorOrdered_leaves free first second shorter).computes first second shorter

end

/-! ## Inversion -/

/-- The result of `mpz_not_inpl`. -/
def notResult (config : MpzConfig) (a : MpzT) : MpzT :=
  ⟨!a.neg, Nat.digits config.digBase (if a.neg then Nat.ofDigits config.digBase a.dig - 1
    else Nat.ofDigits config.digBase a.dig + 1)⟩

theorem notResult_spec (canonical : Canonical config a) :
    Canonical config (notResult config a) ∧
      ∀ i, ((notResult config a).value config).testBit i = !(a.value config).testBit i := by
  constructor
  · refine canonical_digits fun positive => ?_
    rw [Bool.not_eq_true'] at positive
    rw [positive]
    exact Nat.succ_ne_zero _
  · intro i
    have inverted : (notResult config a).value config = Int.lnot (a.value config) := by
      have nonzero := canonical_nonzero canonical
      rw [notResult, MpzT.value, MpzT.value, Nat.ofDigits_digits]
      generalize Nat.ofDigits config.digBase a.dig = magnitude at *
      cases negative : a.neg with
      | false => rfl
      | true =>
        obtain ⟨below, rfl⟩ := Nat.exists_eq_succ_of_ne_zero (nonzero negative)
        rfl
    rw [inverted, Int.testBit_lnot]

theorem digits_one : AreDigits config.digBase [1] ∧ Nat.ofDigits config.digBase [1] = 1 := by
  refine ⟨by simpa using config.one_lt_digBase, ?_⟩
  rw [Nat.ofDigits_singleton]

theorem notInDest_zero {z : MpzBuf} (free : z.fixedDig = false) (zero : z.len = 0) :
    Computes ⟨true, [1]⟩ (notInDest config fill z) := by
  rw [notInDest, if_pos zero]
  refine (fillWith_leaves free fun block _ size => ?_).computes
  have some_ : 1 ≤ reserved 1 := by decide
  have stored : storeAt block 0 [1] = some ([1] ++ block.drop 1) := by
    rw [storeAt, if_pos (by simpa using some_.trans size)]
    rfl
  rw [stored]
  exact @fills_of_front block [1] _ some_ size

theorem notInDest_neg {z : MpzBuf} (valid : Valid config z) (nonzero : z.len ≠ 0)
    (negative : z.neg = true) :
    Computes ⟨false, Nat.digits config.digBase (z.magnitude config - 1)⟩
      (notInDest config fill z) := by
  obtain ⟨one, oneValue⟩ := @digits_one config
  have some_ : z.digits ≠ [] := valid.len_eq_zero_iff.not.mp nonzero
  have positive := (valid.normal.eq_nil_iff config.one_lt_digBase).not.mp some_
  obtain ⟨value, are, normal⟩ := mpnSub_spec valid.digits one (length_pos_iff.mpr some_)
    (by rw [oneValue]; omega)
  rw [oneValue] at value
  rw [notInDest, if_neg nonzero, if_pos negative, MpzBuf.magnitude, ← value,
    normal.digits_eq config.one_lt_digBase are]
  have holds : z.digits <+: Source.same.cells z.dig := take_prefix _ _
  have oneHolds : [1] <+: (Source.apart [1]).cells z.dig := prefix_rfl
  have fills := mpnSub_fills valid.digits one holds oneHolds valid.length.le valid.inside
  rw [valid.length] at fills
  exact (fills.leaves ⟨(Nat.max_eq_left valid.inside).symm, rfl⟩).computes

theorem notInDest_pos {z : MpzBuf} (free : z.fixedDig = false) (valid : Valid config z)
    (nonzero : z.len ≠ 0) (positive : z.neg = false) :
    Computes ⟨true, Nat.digits config.digBase (z.magnitude config + 1)⟩
      (notInDest config fill z) := by
  obtain ⟨one, oneValue⟩ := @digits_one config
  have some_ : z.digits ≠ [] := valid.len_eq_zero_iff.not.mp nonzero
  obtain ⟨value, are, normal⟩ := mpnAdd_spec valid.digits one (length_pos_iff.mpr some_)
  have length := length_mpnAdd valid.digits one
  rw [oneValue] at value
  rw [notInDest, if_neg nonzero, if_neg (by rw [positive]; decide), MpzBuf.magnitude, ← value,
    (normal valid.normal).digits_eq config.one_lt_digBase are]
  refine (fillWith_leaves free fun block grown size => ?_).computes
  rw [← valid.length] at size ⊢
  exact mpnAdd_fills valid.digits one (( take_prefix _ _).trans grown) prefix_rfl
    (length.trans (Nat.le_max_left _ _)) size

theorem notInDest_computes {z : MpzBuf} (free : z.fixedDig = false) (inside : z.len ≤ z.dig.length)
    (canonical : Canonical config z.toMpz) :
    Computes (notResult config z.toMpz) (notInDest config fill z) := by
  have valid : Valid config z := ⟨inside, canonical.digits, canonical.normal⟩
  rw [notResult, MpzBuf.toMpz_neg, MpzBuf.toMpz_dig]
  by_cases zero : z.len = 0
  · have none_ := valid.len_eq_zero_iff.mp zero
    have unsigned : z.neg = false := Bool.eq_false_iff.mpr fun negative =>
      canonical.sign negative none_
    have one : Nat.digits config.digBase (0 + 1) = [1] :=
      Nat.digits_of_lt _ _ (by decide) config.one_lt_digBase
    rw [unsigned, none_, if_neg (by decide), Nat.ofDigits_nil, one]
    exact notInDest_zero free zero
  · cases sign : z.neg with
    | true => exact notInDest_neg valid zero sign
    | false => exact notInDest_pos free valid zero sign

theorem mpzNotInpl_computes (free : dest.fixedDig = false) (holds : Holds config dest lhs a) :
    Computes (notResult config a) (mpzNotInpl config fill dest lhs) := by
  rw [mpzNotInpl]
  cases lhs with
  | dest =>
    rw [notOperand, bind_some, ← holds.same]
    exact notInDest_computes free holds.inside (holds.same ▸ holds.canonical)
  | other z =>
    obtain ⟨copy, isCopy, inside, same, copyFree⟩ :=
      @mpzSet_copies config fill dest (.other z) free holds.valid
    have isOperand := same.trans holds.same
    rw [notOperand, isCopy, bind_some, ← isOperand]
    exact notInDest_computes copyFree inside (isOperand ▸ holds.canonical)

/-- A function with the operands in other places: there is one canonical big integer with these
bits, which it computes with and without `MICROPY_OPT_MPZ_BITWISE`, whichever of the operands are
the destination and whatever is in the blocks behind the digits. -/
def ComputesBits (config : MpzConfig) (bit : Bool → Bool → Bool)
    (run : MpzConfig → (Nat → Nat) → MpzBuf → Arg → Arg → Option MpzBuf) (a b : MpzT) : Prop :=
  ∃ r, Canonical config r ∧
    (∀ i, (r.value config).testBit i =
      bit ((a.value config).testBit i) ((b.value config).testBit i)) ∧
    ∀ optBitwise fill dest lhs rhs, dest.fixedDig = false → Holds config dest lhs a →
      Holds config dest rhs b →
        Computes r (run { config with optBitwise := optBitwise } fill dest lhs rhs)

/-- `mpz_and_inpl`, `mpz_or_inpl`, `mpz_xor_inpl` and `mpz_not_inpl` compute the operations on the
bits of two's complement. In particular the assertion on the last carry of a disjunction holds. -/
theorem bitwise_exact (aCanonical : Canonical config a) (bCanonical : Canonical config b) :
    ComputesBits config (· && ·) mpzAndInpl a b ∧ ComputesBits config (· || ·) mpzOrInpl a b ∧
      ComputesBits config (· ^^ ·) mpzXorInpl a b ∧
      ComputesBits config (fun sign _ => !sign)
        (fun config fill dest lhs _ => mpzNotInpl config fill dest lhs) a b := by
  refine ⟨⟨_, (bitwiseResult_spec bitByBit_and aCanonical bCanonical).1,
    (bitwiseResult_spec bitByBit_and aCanonical bCanonical).2, ?_⟩,
    ⟨_, (bitwiseResult_spec bitByBit_or aCanonical bCanonical).1,
    (bitwiseResult_spec bitByBit_or aCanonical bCanonical).2, ?_⟩,
    ⟨_, (bitwiseResult_spec bitByBit_xor aCanonical bCanonical).1,
    (bitwiseResult_spec bitByBit_xor aCanonical bCanonical).2, ?_⟩,
    ⟨_, (notResult_spec aCanonical).1, (notResult_spec aCanonical).2, ?_⟩⟩
  all_goals intro optBitwise fill dest lhs rhs free first second
  all_goals have left := first.withVariant optBitwise
  all_goals have right := second.withVariant optBitwise
  · exact mpzAndInpl_computes free left right
  · exact mpzOrInpl_computes free left right
  · exact mpzXorInpl_computes free left right
  · have inverts := @mpzNotInpl_computes _ fill _ _ _ free left
    exact inverts

/-- The conjunction of -6 and 3 in the block of -6, without the loops for operands that have no
sign. -/
theorem bitwise_exact_in_place :
    ∃ result, mpzAndInpl { MpzConfig.digits16 with optBitwise := false } (fun _ => 9)
        ⟨true, false, 1, [6]⟩ .dest (.other ⟨false, false, 1, [3]⟩) = some result ∧
      ∀ i, (result.value .digits16).testBit i = ((-6 : Int).testBit i && (3 : Int).testBit i) := by
  have six : Canonical .digits16 ⟨true, [6]⟩ :=
    ⟨by simp [MpzConfig.digBase, MpzConfig.digits16], fun _ => by simp, fun _ => by simp⟩
  have three : Canonical .digits16 ⟨false, [3]⟩ :=
    ⟨by simp [MpzConfig.digBase, MpzConfig.digits16], fun _ => by simp, fun _ => by simp⟩
  obtain ⟨⟨_, -, bits, runs⟩, -⟩ := bitwise_exact six three
  obtain ⟨result, isResult, -, rfl⟩ := runs false (fun _ => 9) ⟨true, false, 1, [6]⟩ .dest
    (.other ⟨false, false, 1, [3]⟩) rfl ⟨by decide, rfl, six⟩ ⟨by decide, rfl, three⟩
  exact ⟨result, isResult, bits⟩

end Exact

end MultiPython.Mpz.InPlace
