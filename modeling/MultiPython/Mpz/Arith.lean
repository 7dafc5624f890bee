import MultiPython.Mpz.Mpz

/-!
# Arithmetic of big integers

The `mpz` functions that the arithmetic of small ints falls back to when a result is no small int.
The destination is an argument where what is in it stays: setting it to zero leaves its sign.
-/

namespace MultiPython.Mpz

open Logic

variable (config : MpzConfig)

def mpzInitZero : MpzT := ⟨false, []⟩

/-- The loop of `mpz_set_from_int` and of `mpz_set_from_ll`. -/
def setLoop (uval : Nat) : List Nat :=
  if uval = 0 then [] else uval % config.digBase :: setLoop (uval / config.digBase)
termination_by uval
decreasing_by exact Nat.div_lt_self (by omega) config.one_lt_digBase

/-- `mpz_set_from_int`. The magnitude of the lowest integer fits an unsigned word. -/
def mpzSetFromInt (z : MpzT) (val : Int) : MpzT :=
  if val = 0 then ⟨z.neg, []⟩ else ⟨decide (val < 0), setLoop config val.natAbs⟩

/-- `mpz_set_from_ll`, for a signed value. -/
def mpzSetFromLl (val : Int) : MpzT := ⟨decide (val < 0), setLoop config val.natAbs⟩

def mpzShlInpl (lhs : MpzT) (rhs : Nat) : MpzT :=
  if lhs.dig = [] ∨ rhs = 0 then lhs else ⟨lhs.neg, mpnShl config lhs.dig rhs⟩

def mpzMulInpl (dest lhs rhs : MpzT) : MpzT :=
  if lhs.dig = [] ∨ rhs.dig = [] then mpzSetFromInt config dest 0
  else ⟨lhs.neg ^^ rhs.neg, mpnMul config lhs.dig rhs.dig⟩

/-- The loop of `mpz_pow_inpl`. It ends when the exponent has been shifted out, which takes no more
steps than the exponent has bits. -/
def powLoop : Nat → MpzT → MpzT → List Nat → Option MpzT
  | 0, _, _, _ => none
  | steps + 1, dest, x, n =>
    if n = [] then some dest
    else
      let dest := if n.headD 0 % 2 ≠ 0 then mpzMulInpl config dest dest x else dest
      let n := mpnShr config n 1
      if n = [] then some dest else powLoop steps dest (mpzMulInpl config x x x) n

def mpzPowInpl (dest lhs rhs : MpzT) : Option MpzT :=
  if lhs.dig = [] ∨ rhs.neg then some (mpzSetFromInt config dest 0)
  else if rhs.dig = [] then some (mpzSetFromInt config dest 1)
  else powLoop config (rhs.dig.length * config.digSize + 1) (mpzSetFromInt config dest 1) lhs rhs.dig

section Values

variable {config} {z dest lhs rhs : MpzT}

/-- Digits without leading zeros. -/
structure WellFormed (config : MpzConfig) (z : MpzT) : Prop where
  digits : AreDigits config.digBase z.dig
  normal : Logic.Normal z.dig

theorem setLoop_eq (uval : Nat) : setLoop config uval = Nat.digits config.digBase uval := by
  induction uval using Nat.strong_induction_on with
  | _ uval ih =>
    rw [setLoop]
    split_ifs with zero
    · rw [zero, Nat.digits_zero]
    · have positive : 0 < uval := Nat.pos_of_ne_zero zero
      rw [ih _ (Nat.div_lt_self positive config.one_lt_digBase),
        Nat.digits_def' config.one_lt_digBase positive]

theorem setLoop_wellFormed (neg : Bool) (uval : Nat) :
    WellFormed config ⟨neg, setLoop config uval⟩ := by
  rw [setLoop_eq]
  refine ⟨fun digit member => Nat.digits_lt_base config.one_lt_digBase member, fun nonempty => ?_⟩
  exact Nat.getLast_digit_ne_zero _ (Nat.digits_ne_nil_iff_ne_zero.mp nonempty)

theorem ofDigits_setLoop (uval : Nat) :
    Nat.ofDigits config.digBase (setLoop config uval) = uval := by
  rw [setLoop_eq, Nat.ofDigits_digits]

theorem MpzT.value_nil (neg : Bool) : MpzT.value config ⟨neg, []⟩ = 0 := by
  cases neg <;> rfl

theorem MpzT.value_eq_zero_iff (wellFormed : WellFormed config z) :
    z.value config = 0 ↔ z.dig = [] := by
  rw [wellFormed.normal.eq_nil_iff config.one_lt_digBase, MpzT.value]
  split_ifs <;> omega

theorem mpzSetFromLl_spec (val : Int) :
    (mpzSetFromLl config val).value config = val ∧ WellFormed config (mpzSetFromLl config val) := by
  refine ⟨?_, setLoop_wellFormed _ _⟩
  rw [mpzSetFromLl, MpzT.value, ofDigits_setLoop]
  by_cases negative : val < 0
  · rw [decide_eq_true negative, if_pos rfl]
    omega
  · rw [decide_eq_false negative, if_neg (by simp)]
    omega

theorem mpzSetFromInt_spec (dest : MpzT) (val : Int) :
    (mpzSetFromInt config dest val).value config = val ∧
      WellFormed config (mpzSetFromInt config dest val) := by
  rw [mpzSetFromInt]
  split_ifs with zero
  · exact ⟨zero ▸ MpzT.value_nil _, areDigits_nil, normal_nil⟩
  · exact mpzSetFromLl_spec val

theorem mpzShlInpl_spec (wellFormed : WellFormed config lhs) (rhs : Nat) :
    (mpzShlInpl config lhs rhs).value config = lhs.value config * 2 ^ rhs ∧
      WellFormed config (mpzShlInpl config lhs rhs) := by
  rw [mpzShlInpl]
  split_ifs with same
  · refine ⟨?_, wellFormed⟩
    rcases same with empty | rfl
    · rw [(MpzT.value_eq_zero_iff wellFormed).mpr empty, Int.zero_mul]
    · rw [pow_zero, Int.mul_one]
  · obtain ⟨value, are, normal⟩ := mpnShl_spec wellFormed.digits
      (Nat.pos_of_ne_zero fun zero => same (.inr zero))
    refine ⟨?_, are, normal⟩
    rw [MpzT.value, MpzT.value, value]
    cases lhs.neg <;> simp

theorem mpzMulInpl_spec (dest : MpzT) (lhsFormed : WellFormed config lhs)
    (rhsFormed : WellFormed config rhs) :
    (mpzMulInpl config dest lhs rhs).value config = lhs.value config * rhs.value config ∧
      WellFormed config (mpzMulInpl config dest lhs rhs) := by
  rw [mpzMulInpl]
  split_ifs with empty
  · obtain ⟨value, formed⟩ := @mpzSetFromInt_spec config dest 0
    refine ⟨value.trans ?_, formed⟩
    rcases empty with none | none
    · rw [(MpzT.value_eq_zero_iff lhsFormed).mpr none, Int.zero_mul]
    · rw [(MpzT.value_eq_zero_iff rhsFormed).mpr none, Int.mul_zero]
  · obtain ⟨someLhs, someRhs⟩ := not_or.mp empty
    obtain ⟨value, are, normal⟩ := mpnMul_spec lhsFormed.digits rhsFormed.digits someLhs someRhs
    refine ⟨?_, are, normal lhsFormed.normal rhsFormed.normal⟩
    rw [MpzT.value, MpzT.value, MpzT.value, value]
    cases lhs.neg <;> cases rhs.neg <;> simp

theorem headD_mod_two (digits : List Nat) :
    digits.headD 0 % 2 = Nat.ofDigits config.digBase digits % 2 := by
  cases digits with
  | nil => rfl
  | cons digit digits =>
    have even : 2 ∣ config.digBase := dvd_pow_self 2 (by have := config.atLeast; omega)
    rw [List.headD_cons, Nat.ofDigits_cons, Nat.add_mod, Nat.mul_mod, Nat.mod_eq_zero_of_dvd even,
      Nat.zero_mul, Nat.zero_mod, Nat.add_zero, Nat.mod_mod]

/-- The loop of `mpz_pow_inpl` multiplies by the power, and ends. -/
theorem powLoop_spec {steps : Nat} {x : MpzT} {n : List Nat} (destFormed : WellFormed config dest)
    (xFormed : WellFormed config x) (nAre : AreDigits config.digBase n) (nNormal : Logic.Normal n)
    (enough : Nat.ofDigits config.digBase n < 2 ^ steps) :
    ∃ power, powLoop config (steps + 1) dest x n = some power ∧
      power.value config = dest.value config * x.value config ^ Nat.ofDigits config.digBase n ∧
      WellFormed config power := by
  induction steps generalizing dest x n with
  | zero =>
    have zero : Nat.ofDigits config.digBase n = 0 := by omega
    have empty := (nNormal.eq_nil_iff config.one_lt_digBase).mpr zero
    exact ⟨dest, by rw [powLoop, if_pos empty], by rw [zero, pow_zero, Int.mul_one], destFormed⟩
  | succ steps ih =>
    obtain ⟨half, halfAre, halfNormal⟩ := mpnShr_spec nAre nNormal 1
    obtain ⟨square, squareFormed⟩ := @mpzMulInpl_spec config x x x xFormed xFormed
    obtain ⟨next, isNext, nextValue, nextFormed⟩ : ∃ next,
        next = (if n.headD 0 % 2 ≠ 0 then mpzMulInpl config dest dest x else dest) ∧
          next.value config =
            dest.value config * x.value config ^ (Nat.ofDigits config.digBase n % 2) ∧
          WellFormed config next := by
      refine ⟨_, rfl, ?_⟩
      rw [headD_mod_two]
      rcases Nat.mod_two_eq_zero_or_one (Nat.ofDigits config.digBase n) with even | odd
      · rw [even, if_neg (by decide), pow_zero, Int.mul_one]
        exact ⟨rfl, destFormed⟩
      · rw [odd, if_pos (by decide), pow_one]
        exact mpzMulInpl_spec dest destFormed xFormed
    rw [pow_one] at half
    have isDone := nNormal.eq_nil_iff config.one_lt_digBase
    have isLast := halfNormal.eq_nil_iff config.one_lt_digBase
    rw [half] at isLast
    generalize Nat.ofDigits config.digBase n = exponent at *
    have power : dest.value config * x.value config ^ exponent =
        next.value config * (x.value config * x.value config) ^ (exponent / 2) := by
      conv_lhs => rw [← Nat.mod_add_div exponent 2, pow_add, pow_mul, ← Int.mul_assoc, sq]
      rw [nextValue]
    rw [powLoop]
    simp only [← isNext]
    split_ifs with done last
    · rw [isDone.mp done, pow_zero, Int.mul_one]
      exact ⟨dest, rfl, rfl, destFormed⟩
    · rw [power, isLast.mp last, pow_zero, Int.mul_one]
      exact ⟨next, rfl, rfl, nextFormed⟩
    · have fewer : Nat.ofDigits config.digBase (mpnShr config n 1) < 2 ^ steps := by
        rw [half]
        omega
      obtain ⟨result, isResult, value, formed⟩ :=
        ih nextFormed squareFormed halfAre halfNormal fewer
      refine ⟨result, isResult, ?_, formed⟩
      rw [value, square, half, power]

theorem mpzPowInpl_spec (dest : MpzT) (lhsFormed : WellFormed config lhs)
    (rhsFormed : WellFormed config rhs) (nonzero : lhs.value config ≠ 0) (sign : rhs.neg = false) :
    ∃ power, mpzPowInpl config dest lhs rhs = some power ∧
      power.value config = lhs.value config ^ Nat.ofDigits config.digBase rhs.dig ∧
      WellFormed config power := by
  have someDigits : lhs.dig ≠ [] := fun empty =>
    nonzero ((MpzT.value_eq_zero_iff lhsFormed).mpr empty)
  obtain ⟨one, oneFormed⟩ := @mpzSetFromInt_spec config dest 1
  rw [mpzPowInpl, if_neg (by simp [someDigits, sign])]
  split_ifs with none
  · rw [none, Nat.ofDigits_nil, pow_zero]
    exact ⟨_, rfl, one, oneFormed⟩
  · have enough : Nat.ofDigits config.digBase rhs.dig < 2 ^ (rhs.dig.length * config.digSize) := by
      rw [Nat.mul_comm, Nat.pow_mul]
      exact rhsFormed.digits.lt_pow config.one_lt_digBase
    obtain ⟨power, isPower, value, formed⟩ :=
      powLoop_spec oneFormed lhsFormed rhsFormed.digits rhsFormed.normal enough
    refine ⟨power, isPower, ?_, formed⟩
    rw [value, one, Int.one_mul]

end Values

end MultiPython.Mpz
