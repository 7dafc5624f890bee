import MultiPython.Mpz.InPlace

/-!
# Sums, differences and products in place

`mpn_add`, `mpn_sub` and `mpn_mul` on blocks of memory, and the functions on big integers that
choose between them by the signs. The arithmetic of the double digit is checked: a round whose
value leaves the type has no result. A pass computes the digits that the functions on lists
compute, whichever operands are in the block of the destination.
-/

namespace MultiPython.Mpz

open List Option

namespace MpzConfig

variable (config : MpzConfig)

/-- A value of `mpz_dbl_dig_t`, if it is one. -/
def checked (value : Nat) : Option Nat := if value < config.dblBase then some value else none

/-- A value of `mpz_dbl_dig_signed_t`, if it is one. -/
def checkedSigned (value : Int) : Option Int :=
  if -(config.dblBase : Int) ≤ 2 * value ∧ 2 * value < config.dblBase then some value else none

theorem digBase_pow (count : Nat) :
    config.digBase ^ count = 2 ^ (config.digSize * count) := by
  rw [digBase, Nat.pow_mul]

theorem digSize_pos : 0 < config.digSize := by
  have := config.atLeast
  omega

theorem checked_of_lt {config : MpzConfig} {value : Nat}
    (small : value < config.digBase * config.digBase) :
    config.checked value = some (config.dbl value) := by
  rw [checked, if_pos (small.trans_le config.digBase_mul_self_le), config.dbl_of_lt small]

end MpzConfig

namespace InPlace

open Logic

variable (config : MpzConfig)

/-! ## Digits -/

/-- Store what is left of a carry behind the digits. -/
def storeCarry (count carry : Nat) (dest : List Nat) : Option (Nat × List Nat) :=
  if carry ≠ 0 then (storeAt dest count [config.store carry]).map fun dest => (count + 1, dest)
  else some (count, dest)

/-- A round of `mpn_add`; the loop over the rest of the longer number adds nothing to its digits. -/
def addRound (carry jdig : Nat) (kdig : Option Nat) : Option (Nat × Nat) := do
  let carry ← config.checked (carry + (jdig + kdig.getD 0))
  some (carry / config.digBase, carry % config.digBase)

def mpnAdd (dest : List Nat) (jdig : Source Nat) (jlen : Nat) (kdig : Source Nat) (klen : Nat) :
    Option (Nat × List Nat) := do
  let done ← pass (addRound config) jdig kdig klen jlen 0 0 dest
  storeCarry config jlen done.1 done.2

/-- A round of `mpn_sub`. The difference of the digits wraps around zero as an `mpz_dbl_dig_t`, and
back when it becomes signed. -/
def subRound (borrow : Int) (jdig : Nat) (kdig : Option Nat) : Option (Int × Nat) := do
  let borrow ← config.checkedSigned (borrow + ((jdig : Int) - (kdig.getD 0 : Nat)))
  some (borrow / config.digBase, (borrow % config.digBase).toNat)

def mpnSub (dest : List Nat) (jdig : Source Nat) (jlen : Nat) (kdig : Source Nat) (klen : Nat) :
    Option (Nat × List Nat) := do
  let borrow : Int := 0
  let done ← pass (subRound config) jdig kdig klen jlen 0 borrow dest
  some (mpnRemoveTrailingZeros done.2 jlen, done.2)

/-- A round of the inner loop of `mpn_mul`: `idig` is read from the block that is stored into. -/
def mulRound (kdig carry jdig : Nat) (idig : Option Nat) : Option (Nat × Nat) := do
  let carry ← config.checked (carry + (idig.getD 0 + jdig * kdig))
  some (carry / config.digBase, carry % config.digBase)

/-- The outer loop of `mpn_mul`, from a row on. Each row works on the block from its own place on. -/
def mulRows (jdig : List Nat) (jlen row ilen : Nat) (dest : List Nat) :
    List Nat → Option (Nat × List Nat)
  | [] => some (ilen, dest)
  | kdig :: kdigs => do
      let done ← pass (mulRound config kdig) (.apart jdig) .same jlen jlen 0 0 (dest.drop row)
      let done ← storeCarry config jlen done.1 done.2
      mulRows jdig jlen (row + 1) (row + done.1) (dest.take row ++ done.2) kdigs

/-- `mpn_mul`. Its operands are not in the block of the destination. -/
def mpnMul (dest jdig : List Nat) (jlen : Nat) (kdig : List Nat) (klen : Nat) :
    Option (Nat × List Nat) :=
  mulRows config jdig jlen 0 0 dest (kdig.take klen)

/-! ## Big integers -/

/-- Add the magnitudes of two operands, of which the first is not smaller. -/
def addMagnitudes (fill : Nat → Nat) (dest : MpzBuf) (neg : Bool) (lhs rhs : Arg) :
    Option MpzBuf := do
  let dest ← mpzNeedDig fill dest ((lhs.deref dest).len + 1)
  dest.assign neg
    (mpnAdd config dest.dig lhs.source (lhs.deref dest).len rhs.source (rhs.deref dest).len)

/-- Subtract the magnitudes of two operands, of which the first is not smaller. -/
def subMagnitudes (fill : Nat → Nat) (dest : MpzBuf) (neg : Bool) (lhs rhs : Arg) :
    Option MpzBuf := do
  let dest ← mpzNeedDig fill dest (lhs.deref dest).len
  dest.assign neg
    (mpnSub config dest.dig lhs.source (lhs.deref dest).len rhs.source (rhs.deref dest).len)

/-- `mpz_add_inpl`, after the operands have been swapped. -/
def addOrdered (fill : Nat → Nat) (dest : MpzBuf) (lhs rhs : Arg) : Option MpzBuf :=
  if (lhs.deref dest).neg = (rhs.deref dest).neg then
    addMagnitudes config fill dest (lhs.deref dest).neg lhs rhs
  else subMagnitudes config fill dest (lhs.deref dest).neg lhs rhs

def mpzAddInpl (fill : Nat → Nat) (dest : MpzBuf) (lhs rhs : Arg) : Option MpzBuf :=
  if mpnCmp (lhs.deref dest).digits (rhs.deref dest).digits = .lt then
    addOrdered config fill dest rhs lhs
  else addOrdered config fill dest lhs rhs

/-- `mpz_sub_inpl`, after the operands have been swapped, which is in `neg`. -/
def subOrdered (fill : Nat → Nat) (dest : MpzBuf) (neg : Bool) (lhs rhs : Arg) : Option MpzBuf :=
  if (lhs.deref dest).neg ≠ (rhs.deref dest).neg then
    addMagnitudes config fill dest (if neg then !(lhs.deref dest).neg else (lhs.deref dest).neg)
      lhs rhs
  else
    subMagnitudes config fill dest (if neg then !(lhs.deref dest).neg else (lhs.deref dest).neg)
      lhs rhs

def mpzSubInpl (fill : Nat → Nat) (dest : MpzBuf) (lhs rhs : Arg) : Option MpzBuf :=
  if mpnCmp (lhs.deref dest).digits (rhs.deref dest).digits = .lt then
    subOrdered config fill dest true rhs lhs
  else subOrdered config fill dest false lhs rhs

/-- An operand of `mpz_mul_inpl`, or a copy of it if it is the destination. -/
def Arg.apart (dest : MpzBuf) : Arg → Option MpzBuf
  | .dest => mpzClone dest
  | .other z => some z

def mpzMulInpl (fill : Nat → Nat) (dest : MpzBuf) (lhs rhs : Arg) : Option MpzBuf :=
  -- `mpz_set_from_int` of zero leaves the sign.
  if (lhs.deref dest).len = 0 ∨ (rhs.deref dest).len = 0 then some { dest with len := 0 }
  else do
    let lhs ← lhs.apart dest
    let rhs ← rhs.apart dest
    let dest ← mpzNeedDig fill dest (lhs.len + rhs.len)
    dest.assign (lhs.neg ^^ rhs.neg)
      (mpnMul config (List.replicate dest.dig.length 0) lhs.dig lhs.len rhs.dig rhs.len)

def mpzCmp (z1 z2 : MpzBuf) : Ordering :=
  if z1.len = 0 ∧ z2.len = 0 then .eq
  else if z1.neg ≠ z2.neg then if z1.neg then .lt else .gt
  else if z1.neg then (mpnCmp z1.digits z2.digits).swap
  else mpnCmp z1.digits z2.digits

/-! ## What the passes compute -/

/-- The digit that is left of a carry. -/
def carried (carry : Nat) : List Nat := if carry ≠ 0 then [config.store carry] else []

section Digits

variable {config} {jdig kdig : Source Nat} {jdigs kdigs block front outs : List Nat}
  {carry factor reserve : Nat}

theorem addRound_eq : addRound config = mulRound config 1 := by
  funext carry jdig kdig
  rw [addRound, mulRound, Nat.mul_one, Nat.add_comm jdig]

/-- The rounds of a row add up columns, and no column leaves the double digit. -/
theorem rounds_mulRound (small : carry < config.digBase) (below : factor < config.digBase)
    (jdigsAre : AreDigits config.digBase jdigs) (kdigsAre : AreDigits config.digBase kdigs) :
    ∃ outs final, roundsOn (mulRound config factor) carry jdigs kdigs = some (final, outs) ∧
      outs ++ carried config final =
        carryOver config.digBase carry (sumColumns factor jdigs kdigs) := by
  induction jdigs generalizing carry kdigs with
  | nil =>
    refine ⟨[], carry, rfl, ?_⟩
    rw [nil_append, carried, sumColumns, carryOver, config.store_of_lt small]
  | cons jdigit jdigs ih =>
    have fit := sumColumns_fit jdigsAre kdigsAre below
    rw [sumColumns, forall_mem_cons] at fit
    obtain ⟨exact, next⟩ := config.dbl_carry small fit.1
    rw [areDigits_cons] at jdigsAre
    have restAre : AreDigits config.digBase kdigs.tail :=
      fun digit member => kdigsAre digit (mem_of_mem_tail member)
    obtain ⟨outs, final, walks, digits⟩ := ih next jdigsAre.2 restAre
    have column : mulRound config factor carry jdigit kdigs.head? =
        some ((carry + (kdigs.headD 0 + jdigit * factor)) / config.digBase,
          (carry + (kdigs.headD 0 + jdigit * factor)) % config.digBase) := by
      have isHead : kdigs.head?.getD 0 = kdigs.headD 0 := headD_eq_head?_getD.symm
      rw [mulRound, isHead, MpzConfig.checked_of_lt (by omega), exact]
      rfl
    refine ⟨(carry + (kdigs.headD 0 + jdigit * factor)) % config.digBase :: outs, final, ?_, ?_⟩
    · rw [roundsOn, column]
      simp only [bind_eq_bind, bind_some, walks]
    · rw [sumColumns, carryOver, ← digits]
      rfl

theorem storeCarry_eq {final : Nat} (room : (outs ++ carried config final).length ≤ block.length) :
    storeCarry config outs.length final (outs ++ block.drop outs.length) =
      some ((outs ++ carried config final).length,
        outs ++ carried config final ++ block.drop (outs ++ carried config final).length) := by
  unfold storeCarry carried at *
  split_ifs at * with some_
  · rw [length_append, length_singleton] at room ⊢
    rw [drop_eq_getElem_cons (by omega : outs.length < block.length)]
    have stored := @storeAt_append _ outs [block[outs.length]] (block.drop (outs.length + 1))
      [config.store final] rfl
    rw [append_assoc, singleton_append] at stored
    rw [stored]
    rfl
  · rw [append_nil]

theorem row_eq (below : factor < config.digBase) (jdigsAre : AreDigits config.digBase jdigs)
    (kdigsAre : AreDigits config.digBase kdigs) (jdigHolds : jdigs <+: jdig.cells block)
    (kdigHolds : kdigs <+: kdig.cells block)
    (room : (carryOver config.digBase 0 (sumColumns factor jdigs kdigs)).length ≤ block.length) :
    (pass (mulRound config factor) jdig kdig kdigs.length jdigs.length 0 0 block).bind
        (fun done => storeCarry config jdigs.length done.1 done.2) =
      some ((carryOver config.digBase 0 (sumColumns factor jdigs kdigs)).length,
        carryOver config.digBase 0 (sumColumns factor jdigs kdigs) ++
          block.drop (carryOver config.digBase 0 (sumColumns factor jdigs kdigs)).length) := by
  obtain ⟨outs, final, walks, digits⟩ :=
    rounds_mulRound config.digBase_pos below jdigsAre kdigsAre
  have length := length_of_rounds walks
  have atLeast : jdigs.length ≤ block.length := by
    rw [← digits, length_append, length] at room
    omega
  rw [pass_of_rounds walks jdigHolds kdigHolds atLeast, bind_some, ← digits, ← length]
  exact storeCarry_eq (by rwa [digits])

theorem length_mpnAdd (jdigsAre : AreDigits config.digBase jdigs)
    (kdigsAre : AreDigits config.digBase kdigs) :
    (Mpz.mpnAdd config jdigs kdigs).length ≤ jdigs.length + 1 := by
  have bounds := @length_carryOver config.digBase 0 (sumColumns 1 jdigs kdigs)
  rw [length_sumColumns] at bounds
  rw [Mpz.mpnAdd, mpnAddFrom_eq config.digBase_pos jdigsAre kdigsAre]
  exact bounds.2

theorem mpnAdd_fills (jdigsAre : AreDigits config.digBase jdigs)
    (kdigsAre : AreDigits config.digBase kdigs) (jdigHolds : jdigs <+: jdig.cells block)
    (kdigHolds : kdigs <+: kdig.cells block)
    (fits : (Mpz.mpnAdd config jdigs kdigs).length ≤ reserve) (inside : reserve ≤ block.length) :
    Fills reserve block (Mpz.mpnAdd config jdigs kdigs)
      (mpnAdd config block jdig jdigs.length kdig kdigs.length) := by
  have sum : Mpz.mpnAdd config jdigs kdigs =
      carryOver config.digBase 0 (sumColumns 1 jdigs kdigs) :=
    mpnAddFrom_eq config.digBase_pos jdigsAre kdigsAre
  have row := row_eq config.one_lt_digBase jdigsAre kdigsAre jdigHolds kdigHolds
    (by rw [← sum]; exact fits.trans inside)
  rw [← sum, ← addRound_eq] at row
  rw [mpnAdd, bind_eq_bind, row]
  exact fills_of_front fits inside

/-- The rounds of `mpn_sub` do not leave the signed double digit. -/
theorem rounds_subRound {borrow : Int} (above : -1 ≤ borrow) (below : borrow ≤ 0)
    (jdigsAre : AreDigits config.digBase jdigs) (kdigsAre : AreDigits config.digBase kdigs) :
    ∃ final, roundsOn (subRound config) borrow jdigs kdigs =
      some (final, mpnSubFrom config borrow jdigs kdigs) := by
  have large := config.digBase_large
  have square : 16 * config.digBase ≤ config.digBase * config.digBase :=
    Nat.mul_le_mul_right _ large
  have room : ((config.digBase * config.digBase : Nat) : Int) ≤ config.dblBase := by
    exact_mod_cast config.digBase_mul_self_le
  have positive : (0 : Int) < config.digBase := by exact_mod_cast config.digBase_pos
  induction jdigs generalizing borrow kdigs with
  | nil =>
    unfold mpnSubFrom
    exact ⟨borrow, rfl⟩
  | cons jdigit jdigs ih =>
    rw [areDigits_cons] at jdigsAre
    have digit : kdigs.head?.getD 0 < config.digBase := by
      cases kdigs with
      | nil => exact config.digBase_pos
      | cons kdigit kdigs => exact (areDigits_cons.mp kdigsAre).1
    have restAre : AreDigits config.digBase kdigs.tail :=
      fun digit member => kdigsAre digit (mem_of_mem_tail member)
    generalize isDifference : borrow + ((jdigit : Int) - (kdigs.head?.getD 0 : Nat)) = difference
    have nextAbove : -1 ≤ difference / config.digBase :=
      Int.le_ediv_of_mul_le positive (by omega)
    have nextBelow : difference / config.digBase < 1 :=
      Int.ediv_lt_of_lt_mul positive (by omega)
    obtain ⟨final, walks⟩ := ih nextAbove (by omega) jdigsAre.2 restAre
    have step : subRound config borrow jdigit kdigs.head? =
        some (difference / config.digBase, (difference % config.digBase).toNat) := by
      rw [subRound, isDifference, MpzConfig.checkedSigned, if_pos (by omega)]
      rfl
    have exact : difference.bmod config.dblBase = difference :=
      MpzConfig.bmod_dblBase (by omega) (by omega)
    have listed : mpnSubFrom config borrow (jdigit :: jdigs) kdigs =
        (difference % config.digBase).toNat ::
          mpnSubFrom config (difference / config.digBase) jdigs kdigs.tail := by
      cases kdigs with
      | nil =>
        simp only [head?_nil, getD_none, Nat.cast_zero, Int.sub_zero] at isDifference
        rw [mpnSubFrom, isDifference]
        simp only [exact, tail_nil]
      | cons kdigit kdigs =>
        simp only [head?_cons, getD_some] at isDifference
        rw [mpnSubFrom, isDifference]
        simp only [exact, tail_cons]
    refine ⟨final, ?_⟩
    rw [roundsOn, step, listed]
    simp only [bind_eq_bind, bind_some, walks]

theorem mpnSub_fills (jdigsAre : AreDigits config.digBase jdigs)
    (kdigsAre : AreDigits config.digBase kdigs) (jdigHolds : jdigs <+: jdig.cells block)
    (kdigHolds : kdigs <+: kdig.cells block) (fits : jdigs.length ≤ reserve)
    (inside : reserve ≤ block.length) :
    Fills reserve block (Mpz.mpnSub config jdigs kdigs)
      (mpnSub config block jdig jdigs.length kdig kdigs.length) := by
  obtain ⟨final, walks⟩ := rounds_subRound (by omega : (-1 : Int) ≤ 0) le_rfl jdigsAre kdigsAre
  have length := length_of_rounds walks
  rw [mpnSub, bind_eq_bind,
    pass_of_rounds walks jdigHolds kdigHolds (fits.trans inside), bind_some, ← length]
  exact fills_of_trimmed (by omega) inside

theorem sumColumns_append_zeros {digits others : List Nat} (count : Nat) :
    sumColumns factor digits (others ++ List.replicate count 0) =
      sumColumns factor digits others := by
  induction digits generalizing others count with
  | nil => rfl
  | cons digit digits ih =>
    rw [sumColumns, sumColumns]
    cases others with
    | nil =>
      cases count with
      | zero => rfl
      | succ count =>
        have rest := @ih [] count
        simpa [replicate_succ] using rest
    | cons other others =>
      rw [cons_append, headD_cons, tail_cons, headD_cons, tail_cons,
        ih]

/-- A row of `mpn_mul`, where the block is zero behind the digits of the earlier rows. -/
theorem mulRow_eq {idigs jdig : List Nat} {kdigit zeros : Nat}
    (jdigsAre : AreDigits config.digBase jdigs) (below : kdigit < config.digBase)
    (idigsAre : AreDigits config.digBase idigs) (shorter : idigs.length ≤ jdigs.length)
    (room : jdigs.length + 1 ≤ idigs.length + zeros) (jdigHolds : jdigs <+: jdig) :
    ∃ row, mpnMulRow config kdigit 0 jdigs idigs = row ∧ AreDigits config.digBase row ∧
      jdigs.length ≤ row.length ∧ row.length ≤ jdigs.length + 1 ∧
      (pass (mulRound config kdigit) (.apart jdig) .same jdigs.length jdigs.length 0 0
          (idigs ++ List.replicate zeros 0)).bind
          (fun done => storeCarry config jdigs.length done.1 done.2) =
        some (row.length,
          row ++ List.replicate (idigs.length + zeros - row.length) 0) := by
  refine ⟨_, rfl, ?_⟩
  rw [mpnMulRow_eq config.digBase_pos below jdigsAre idigsAre]
  have bounds := @length_carryOver config.digBase 0 (sumColumns kdigit jdigs idigs)
  rw [length_sumColumns] at bounds
  refine ⟨areDigits_carryOver config.digBase_pos config.digBase_pos
    (sumColumns_fit jdigsAre idigsAre below), bounds.1, bounds.2, ?_⟩
  -- The row reads as many digits of the block as the factor has.
  have seconds : (idigs ++ replicate zeros 0).take jdigs.length =
      idigs ++ replicate (jdigs.length - idigs.length) 0 := by
    rw [take_append, take_of_length_le shorter, take_replicate,
      Nat.min_eq_left (by omega)]
  have secondsLength :
      (idigs ++ replicate (jdigs.length - idigs.length) 0).length = jdigs.length := by
    rw [length_append, length_replicate]
    omega
  have row := @row_eq config (.apart jdig) .same jdigs
    (idigs ++ replicate (jdigs.length - idigs.length) 0) (idigs ++ replicate zeros 0)
    kdigit below jdigsAre
    (areDigits_append.mpr ⟨idigsAre, areDigits_replicate_zero config.digBase_pos _⟩) jdigHolds
    (by rw [← seconds]; exact take_prefix _ _)
  rw [sumColumns_append_zeros, secondsLength] at row
  rw [row (by rw [length_append, length_replicate]; omega), drop_append,
    drop_of_length_le (by omega : idigs.length ≤ _), nil_append, drop_replicate]
  congr 4
  omega

/-- The rows of `mpn_mul`, where the block is zero behind the digits of the earlier rows. -/
theorem mulRows_eq {idigs jdig : List Nat} {ilen zeros : Nat} (nonempty : jdigs ≠ [])
    (jdigsAre : AreDigits config.digBase jdigs) (kdigsAre : AreDigits config.digBase kdigs)
    (idigsAre : AreDigits config.digBase idigs) (shorter : idigs.length ≤ jdigs.length)
    (room : jdigs.length + kdigs.length ≤ idigs.length + zeros) (jdigHolds : jdigs <+: jdig)
    (done : kdigs = [] → ilen = front.length + idigs.length) :
    ∃ spare, (mpnMulFrom config jdigs idigs kdigs).length + spare = idigs.length + zeros ∧
      mulRows config jdig jdigs.length front.length ilen
          (front ++ (idigs ++ List.replicate zeros 0)) kdigs =
        some (front.length + (mpnMulFrom config jdigs idigs kdigs).length,
          front ++ (mpnMulFrom config jdigs idigs kdigs ++ List.replicate spare 0)) := by
  induction kdigs generalizing front idigs ilen zeros with
  | nil => exact ⟨zeros, by rw [mpnMulFrom], by rw [mulRows, mpnMulFrom, done rfl]⟩
  | cons kdigit kdigs ih =>
    rw [areDigits_cons] at kdigsAre
    rw [length_cons] at room
    have positive := length_pos_iff.mpr nonempty
    obtain ⟨row, isRow, rowAre, atLeast, atMost, stored⟩ :=
      mulRow_eq jdigsAre kdigsAre.1 idigsAre shorter
        (by omega : jdigs.length + 1 ≤ idigs.length + zeros) jdigHolds
    obtain ⟨first, rest, rfl⟩ := exists_cons_of_length_pos (by omega : 0 < row.length)
    rw [areDigits_cons] at rowAre
    rw [length_cons] at atLeast atMost stored
    obtain ⟨spare, total, rows⟩ := @ih (front ++ [first]) rest
      (front.length + (rest.length + 1)) (idigs.length + zeros - (rest.length + 1)) kdigsAre.2
      rowAre.2 (by omega) (by omega)
      (fun _ => by rw [length_append, length_singleton]; omega)
    rw [mpnMulFrom]
    simp only [isRow, take_succ_cons, take_zero, tail_cons]
    refine ⟨spare, by rw [length_append, length_singleton]; omega, ?_⟩
    rw [mulRows, drop_left, take_left]
    simp only [bind_eq_bind]
    rw [← bind_assoc, stored, bind_some]
    simp only [length_append, append_assoc, length_cons, cons_append,
      nil_append, length_nil, Nat.zero_add] at rows ⊢
    rw [rows]
    congr 2
    omega

theorem mpnMul_eq {jdig kdig : List Nat} {size : Nat} (nonempty : jdigs ≠ []) (some_ : kdigs ≠ [])
    (jdigsAre : AreDigits config.digBase jdigs) (kdigsAre : AreDigits config.digBase kdigs)
    (jdigHolds : jdigs <+: jdig) (kdigHolds : kdigs <+: kdig)
    (room : jdigs.length + kdigs.length ≤ size) :
    ∃ spare, (Mpz.mpnMul config jdigs kdigs).length + spare = size ∧
      mpnMul config (List.replicate size 0) jdig jdigs.length kdig kdigs.length =
        some ((Mpz.mpnMul config jdigs kdigs).length,
          Mpz.mpnMul config jdigs kdigs ++ List.replicate spare 0) := by
  have rows := @mulRows_eq config jdigs kdigs [] [] jdig 0 size nonempty jdigsAre kdigsAre
    areDigits_nil (Nat.zero_le _) (by simpa using room) jdigHolds (fun none => absurd none some_)
  rw [mpnMul, ← prefix_iff_eq_take.mp kdigHolds]
  simpa [Mpz.mpnMul] using rows

end Digits

/-! ## What the functions on big integers compute -/

section Exact

variable {config} {fill : Nat → Nat} {dest : MpzBuf} {lhs rhs : Arg} {neg : Bool}

theorem addMagnitudes_leaves (free : dest.fixedDig = false)
    (lhsValid : Valid config (lhs.deref dest)) (rhsValid : Valid config (rhs.deref dest)) :
    Leaves (reserved ((lhs.deref dest).len + 1)) dest neg
      (Mpz.mpnAdd config (lhs.deref dest).digits (rhs.deref dest).digits)
      (addMagnitudes config fill dest neg lhs rhs) := by
  obtain ⟨block, needed, grown, keeps⟩ :=
    @mpzNeedDig_spec fill dest free ((lhs.deref dest).len + 1)
  have lhsLength := lhsValid.length
  have size := keeps.length
  have atLeast : (lhs.deref dest).len + 1 ≤ reserved ((lhs.deref dest).len + 1) :=
    Nat.le_max_left _ _
  have length := length_mpnAdd lhsValid.digits rhsValid.digits
  rw [addMagnitudes, needed]
  simp only [bind_eq_bind, bind_some, Arg.deref_len]
  refine Fills.leaves keeps ?_
  have fills := mpnAdd_fills lhsValid.digits rhsValid.digits
    (lhs.digits_hold grown) (rhs.digits_hold grown)
    (by omega : _ ≤ reserved ((lhs.deref dest).len + 1)) (by omega)
  rwa [lhsLength, rhsValid.length] at fills

theorem subMagnitudes_leaves (free : dest.fixedDig = false)
    (lhsValid : Valid config (lhs.deref dest)) (rhsValid : Valid config (rhs.deref dest)) :
    Leaves (reserved (lhs.deref dest).len) dest neg
      (Mpz.mpnSub config (lhs.deref dest).digits (rhs.deref dest).digits)
      (subMagnitudes config fill dest neg lhs rhs) := by
  obtain ⟨block, needed, grown, keeps⟩ := @mpzNeedDig_spec fill dest free (lhs.deref dest).len
  have lhsLength := lhsValid.length
  have size := keeps.length
  have atLeast : (lhs.deref dest).len ≤ reserved (lhs.deref dest).len := Nat.le_max_left _ _
  rw [subMagnitudes, needed]
  simp only [bind_eq_bind, bind_some, Arg.deref_len]
  refine Fills.leaves keeps ?_
  have fills := mpnSub_fills lhsValid.digits rhsValid.digits
    (lhs.digits_hold grown) (rhs.digits_hold grown)
    (by omega : _ ≤ reserved (lhs.deref dest).len) (by omega)
  rwa [lhsLength, rhsValid.length] at fills

theorem Valid.len_le {z1 z2 : MpzBuf} (first : Valid config z1) (second : Valid config z2)
    (notLarger : z2.magnitude config ≤ z1.magnitude config) : z2.len ≤ z1.len := by
  by_contra longer
  have larger := second.normal.lt_of_length_lt config.one_lt_digBase first.digits
    (by rw [first.length, second.length]; omega)
  exact absurd notLarger (Nat.not_le.mpr larger)

section

variable (free : dest.fixedDig = false) (lhsValid : Valid config (lhs.deref dest))
  (rhsValid : Valid config (rhs.deref dest))
  (notLarger : (rhs.deref dest).magnitude config ≤ (lhs.deref dest).magnitude config)

include free lhsValid rhsValid notLarger

theorem addMagnitudes_spec :
    ∃ result, addMagnitudes config fill dest neg lhs rhs = some result ∧ Valid config result ∧
      result.value config = signOf neg *
        (((lhs.deref dest).magnitude config : Int) + (rhs.deref dest).magnitude config) ∧
      Keeps (reserved ((lhs.deref dest).len + 1)) dest.dig result.dig := by
  have longer := lhsValid.len_le rhsValid notLarger
  rw [← lhsValid.length, ← rhsValid.length] at longer
  obtain ⟨value, are, normal⟩ := mpnAdd_spec lhsValid.digits rhsValid.digits longer
  obtain ⟨result, isResult, valid, isValue, keeps⟩ :=
    (@addMagnitudes_leaves config fill dest lhs rhs neg free lhsValid rhsValid).valid
      ⟨are, normal lhsValid.normal⟩
  refine ⟨result, isResult, valid, ?_, keeps⟩
  rw [isValue, MpzT.value, value]
  cases neg <;> simp [MpzBuf.magnitude, signOf]

theorem subMagnitudes_spec :
    ∃ result, subMagnitudes config fill dest neg lhs rhs = some result ∧ Valid config result ∧
      result.value config = signOf neg *
        (((lhs.deref dest).magnitude config : Int) - (rhs.deref dest).magnitude config) ∧
      Keeps (reserved (lhs.deref dest).len) dest.dig result.dig := by
  have longer := lhsValid.len_le rhsValid notLarger
  rw [← lhsValid.length, ← rhsValid.length] at longer
  obtain ⟨value, are, normal⟩ :=
    mpnSub_spec lhsValid.digits rhsValid.digits longer notLarger
  obtain ⟨result, isResult, valid, isValue, keeps⟩ :=
    (@subMagnitudes_leaves config fill dest lhs rhs neg free lhsValid rhsValid).valid ⟨are, normal⟩
  refine ⟨result, isResult, valid, ?_, keeps⟩
  have exact := Nat.cast_sub (R := Int) notLarger
  rw [isValue, MpzT.value, value]
  unfold MpzBuf.magnitude at *
  cases neg <;> simp [exact, signOf]

end

/-- The digits that a sum or a difference reserves: one more if the magnitudes are added. -/
def sumReserve (lhs rhs : MpzBuf) (adds : Bool) : Nat :=
  reserved (max lhs.len rhs.len + if adds then 1 else 0)

section

variable (free : dest.fixedDig = false) (lhsValid : Valid config (lhs.deref dest))
  (rhsValid : Valid config (rhs.deref dest))
  (notLarger : (rhs.deref dest).magnitude config ≤ (lhs.deref dest).magnitude config)

include free lhsValid rhsValid notLarger

/-- Magnitudes are added or subtracted, and given a sign. -/
theorem magnitudes_spec (adds : Prop) [Decidable adds] :
    ∃ result, (if adds then addMagnitudes config fill dest neg lhs rhs
        else subMagnitudes config fill dest neg lhs rhs) = some result ∧ Valid config result ∧
      result.value config = signOf neg * ((lhs.deref dest).magnitude config +
        (if adds then 1 else -1) * (rhs.deref dest).magnitude config) ∧
      Keeps (sumReserve (lhs.deref dest) (rhs.deref dest) (decide adds)) dest.dig result.dig := by
  rw [sumReserve, Nat.max_eq_left (lhsValid.len_le rhsValid notLarger)]
  simp only [decide_eq_true_eq]
  split_ifs
  · rw [Int.one_mul]
    exact addMagnitudes_spec free lhsValid rhsValid notLarger
  · rw [Int.neg_one_mul, ← Int.sub_eq_add_neg]
    exact subMagnitudes_spec free lhsValid rhsValid notLarger

theorem addOrdered_spec :
    ∃ result, addOrdered config fill dest lhs rhs = some result ∧ Valid config result ∧
      result.value config = (lhs.deref dest).value config + (rhs.deref dest).value config ∧
      Keeps (sumReserve (lhs.deref dest) (rhs.deref dest)
        (decide ((lhs.deref dest).neg = (rhs.deref dest).neg))) dest.dig result.dig := by
  obtain ⟨result, isResult, valid, value, keeps⟩ :=
    @magnitudes_spec config fill dest lhs rhs (lhs.deref dest).neg free lhsValid rhsValid notLarger
      ((lhs.deref dest).neg = (rhs.deref dest).neg) _
  refine ⟨result, isResult, valid, ?_, keeps⟩
  rw [value, MpzBuf.value_eq, MpzBuf.value_eq, Int.mul_add, ← Int.mul_assoc]
  congr 2
  cases (lhs.deref dest).neg <;> cases (rhs.deref dest).neg <;> rfl

theorem subOrdered_spec :
    ∃ result, subOrdered config fill dest neg lhs rhs = some result ∧ Valid config result ∧
      result.value config =
        signOf neg * ((lhs.deref dest).value config - (rhs.deref dest).value config) ∧
      Keeps (sumReserve (lhs.deref dest) (rhs.deref dest)
        (decide ((lhs.deref dest).neg ≠ (rhs.deref dest).neg))) dest.dig result.dig := by
  obtain ⟨result, isResult, valid, value, keeps⟩ :=
    @magnitudes_spec config fill dest lhs rhs
      (if neg then !(lhs.deref dest).neg else (lhs.deref dest).neg) free lhsValid rhsValid notLarger
      ((lhs.deref dest).neg ≠ (rhs.deref dest).neg) _
  refine ⟨result, isResult, valid, ?_, keeps⟩
  rw [value, MpzBuf.value_eq, MpzBuf.value_eq]
  cases neg <;> cases (lhs.deref dest).neg <;> cases (rhs.deref dest).neg <;> simp [signOf]
  all_goals omega

end

theorem mpnCmp_digits {z1 z2 : MpzBuf} (first : Valid config z1) (second : Valid config z2) :
    mpnCmp z1.digits z2.digits = compare (z1.magnitude config) (z2.magnitude config) :=
  mpnCmp_eq first.digits second.digits first.normal second.normal

theorem mpzAddInpl_spec (free : dest.fixedDig = false)
    (lhsValid : Valid config (lhs.deref dest)) (rhsValid : Valid config (rhs.deref dest)) :
    ∃ result, mpzAddInpl config fill dest lhs rhs = some result ∧ Valid config result ∧
      result.value config = (lhs.deref dest).value config + (rhs.deref dest).value config ∧
      Keeps (sumReserve (lhs.deref dest) (rhs.deref dest)
        (decide ((lhs.deref dest).neg = (rhs.deref dest).neg))) dest.dig result.dig := by
  rw [mpzAddInpl]
  split_ifs with smaller
  all_goals rw [mpnCmp_digits lhsValid rhsValid, Nat.compare_eq_lt] at smaller
  · obtain ⟨result, isResult, valid, value, keeps⟩ :=
      @addOrdered_spec config fill dest rhs lhs free rhsValid lhsValid smaller.le
    refine ⟨result, isResult, valid, value.trans (Int.add_comm _ _), ?_⟩
    rwa [sumReserve, Nat.max_comm, decide_eq_decide.mpr eq_comm]
  · exact addOrdered_spec free lhsValid rhsValid (Nat.not_lt.mp smaller)

theorem mpzSubInpl_spec (free : dest.fixedDig = false)
    (lhsValid : Valid config (lhs.deref dest)) (rhsValid : Valid config (rhs.deref dest)) :
    ∃ result, mpzSubInpl config fill dest lhs rhs = some result ∧ Valid config result ∧
      result.value config = (lhs.deref dest).value config - (rhs.deref dest).value config ∧
      Keeps (sumReserve (lhs.deref dest) (rhs.deref dest)
        (decide ((lhs.deref dest).neg ≠ (rhs.deref dest).neg))) dest.dig result.dig := by
  rw [mpzSubInpl]
  split_ifs with smaller
  all_goals rw [mpnCmp_digits lhsValid rhsValid, Nat.compare_eq_lt] at smaller
  · obtain ⟨result, isResult, valid, value, keeps⟩ :=
      @subOrdered_spec config fill dest rhs lhs true free rhsValid lhsValid smaller.le
    refine ⟨result, isResult, valid, ?_, ?_⟩
    · rw [value, signOf, if_pos rfl]
      omega
    · rwa [sumReserve, Nat.max_comm, decide_eq_decide.mpr ne_comm]
  · obtain ⟨result, isResult, valid, value, keeps⟩ :=
      @subOrdered_spec config fill dest lhs rhs false free lhsValid rhsValid (Nat.not_lt.mp smaller)
    refine ⟨result, isResult, valid, ?_, keeps⟩
    rw [value, signOf, if_neg (by decide), Int.one_mul]

/-- The block after a product: it is no larger than it has to be, and what is behind the reserved
digits is as it was or has been cleared. -/
structure Clears (reserve : Nat) (before after : List Nat) : Prop where
  length : after.length ≤ max before.length reserve
  behind : after.drop reserve = before.drop reserve ∨ ∀ digit ∈ after.drop reserve, digit = 0

theorem Arg.apart_eq {arg : Arg} (valid : Valid config (arg.deref dest))
    (nonzero : (arg.deref dest).len ≠ 0) :
    ∃ z, arg.apart dest = some z ∧ z.neg = (arg.deref dest).neg ∧ z.len = (arg.deref dest).len ∧
      z.dig = (arg.deref dest).dig := by
  cases arg with
  | dest =>
    have inside := valid.inside
    have nonempty : dest.dig ≠ [] := by
      intro none
      simp only [Arg.deref, none, length_nil] at inside nonzero
      omega
    exact ⟨_, if_neg nonempty, rfl, rfl, rfl⟩
  | other z => exact ⟨z, rfl, rfl, rfl, rfl⟩

theorem length_mpnMul {jdigs kdigs : List Nat} (nonempty : jdigs ≠ []) (some_ : kdigs ≠ [])
    (jdigsAre : AreDigits config.digBase jdigs) (kdigsAre : AreDigits config.digBase kdigs)
    (jdigsNormal : Normal jdigs) (kdigsNormal : Normal kdigs) :
    (Mpz.mpnMul config jdigs kdigs).length ≤ jdigs.length + kdigs.length := by
  obtain ⟨value, -, normal⟩ := mpnMul_spec jdigsAre kdigsAre nonempty some_
  refine (normal jdigsNormal kdigsNormal).length_le config.one_lt_digBase ?_
  rw [value, Nat.pow_add]
  exact Nat.mul_lt_mul'' (jdigsAre.lt_pow config.one_lt_digBase)
    (kdigsAre.lt_pow config.one_lt_digBase)

/-- `mpz_mul_inpl` in a block computes what it computes on lists of digits. -/
theorem mpzMulInpl_refines (free : dest.fixedDig = false)
    (lhsValid : Valid config (lhs.deref dest)) (rhsValid : Valid config (rhs.deref dest)) :
    ∃ result, mpzMulInpl config fill dest lhs rhs = some result ∧
      result.toMpz = Mpz.mpzMulInpl config dest.toMpz (lhs.deref dest).toMpz
        (rhs.deref dest).toMpz ∧
      result.len ≤ result.dig.length ∧
      Clears (reserved ((lhs.deref dest).len + (rhs.deref dest).len)) dest.dig result.dig := by
  have listed : Mpz.mpzMulInpl config dest.toMpz (lhs.deref dest).toMpz (rhs.deref dest).toMpz =
      if (lhs.deref dest).digits = [] ∨ (rhs.deref dest).digits = [] then ⟨dest.neg, []⟩
      else ⟨(lhs.deref dest).neg ^^ (rhs.deref dest).neg,
        Mpz.mpnMul config (lhs.deref dest).digits (rhs.deref dest).digits⟩ := rfl
  rw [mpzMulInpl, listed]
  simp only [lhsValid.len_eq_zero_iff, rhsValid.len_eq_zero_iff]
  by_cases empty : (lhs.deref dest).digits = [] ∨ (rhs.deref dest).digits = []
  · rw [if_pos empty, if_pos empty]
    exact ⟨_, rfl, rfl, Nat.zero_le _, Nat.le_max_left _ _, .inl rfl⟩
  · rw [if_neg empty, if_neg empty]
    obtain ⟨lhsSome, rhsSome⟩ := not_or.mp empty
    obtain ⟨left, isLeft, leftNeg, leftLen, leftDig⟩ :=
      Arg.apart_eq lhsValid (lhsValid.len_eq_zero_iff.not.mpr lhsSome)
    obtain ⟨right, isRight, rightNeg, rightLen, rightDig⟩ :=
      Arg.apart_eq rhsValid (rhsValid.len_eq_zero_iff.not.mpr rhsSome)
    obtain ⟨block, needed, grown, keeps⟩ :=
      @mpzNeedDig_spec fill dest free ((lhs.deref dest).len + (rhs.deref dest).len)
    have size := keeps.length
    have atLeast : (lhs.deref dest).len + (rhs.deref dest).len ≤
        reserved ((lhs.deref dest).len + (rhs.deref dest).len) := Nat.le_max_left _ _
    obtain ⟨spare, total, product⟩ := mpnMul_eq lhsSome rhsSome lhsValid.digits rhsValid.digits
      ( take_prefix (lhs.deref dest).len (lhs.deref dest).dig)
      ( take_prefix (rhs.deref dest).len (rhs.deref dest).dig)
      (by rw [lhsValid.length, rhsValid.length]; omega :
        (lhs.deref dest).digits.length + (rhs.deref dest).digits.length ≤ block.length)
    rw [lhsValid.length, rhsValid.length] at product
    simp only [isLeft, isRight, bind_eq_bind, bind_some, leftLen, rightLen, leftDig,
      rightDig, leftNeg, rightNeg, needed, product, MpzBuf.assign, map_some]
    have fits := length_mpnMul lhsSome rhsSome lhsValid.digits rhsValid.digits lhsValid.normal
      rhsValid.normal
    rw [lhsValid.length, rhsValid.length] at fits
    refine ⟨_, rfl, ?_, ?_, ?_, .inr fun digit member => ?_⟩
    · simp [MpzBuf.toMpz, MpzBuf.digits]
    · simp
    · rw [length_append, length_replicate, total, size]
    · rw [drop_append, drop_of_length_le (by omega), nil_append,
        drop_replicate] at member
      exact eq_of_mem_replicate member

theorem mpzCmp_eq {z1 z2 : MpzBuf} (first : Valid config z1) (second : Valid config z2) :
    mpzCmp z1 z2 = compare (z1.value config) (z2.value config) := by
  have firstZero : z1.len = 0 ↔ z1.magnitude config = 0 :=
    first.len_eq_zero_iff.trans (first.normal.eq_nil_iff config.one_lt_digBase)
  have secondZero : z2.len = 0 ↔ z2.magnitude config = 0 :=
    second.len_eq_zero_iff.trans (second.normal.eq_nil_iff config.one_lt_digBase)
  rw [mpzCmp, mpnCmp_digits first second, MpzBuf.value_eq, MpzBuf.value_eq]
  simp only [firstZero, secondZero]
  generalize z1.magnitude config = left
  generalize z2.magnitude config = right
  cases z1.neg <;> cases z2.neg <;> simp [signOf, compare, compareOfLessAndEq]
  all_goals split_ifs <;> first | omega | simp

/-- Whichever of the operands are the destination, `mpz_add_inpl`, `mpz_sub_inpl` and
`mpz_mul_inpl` compute the exact sum, difference and product, without leaving a double digit and
inside of the digits that they have reserved; and `mpz_cmp` is the order. -/
theorem arithmetic_exact (fill : Nat → Nat) (dest : MpzBuf) (lhs rhs : Arg)
    (free : dest.fixedDig = false) (lhsValid : Valid config (lhs.deref dest))
    (rhsValid : Valid config (rhs.deref dest)) :
    (∃ sum, mpzAddInpl config fill dest lhs rhs = some sum ∧ Valid config sum ∧
      sum.value config = (lhs.deref dest).value config + (rhs.deref dest).value config ∧
      Keeps (sumReserve (lhs.deref dest) (rhs.deref dest)
        (decide ((lhs.deref dest).neg = (rhs.deref dest).neg))) dest.dig sum.dig) ∧
    (∃ difference, mpzSubInpl config fill dest lhs rhs = some difference ∧
      Valid config difference ∧
      difference.value config = (lhs.deref dest).value config - (rhs.deref dest).value config ∧
      Keeps (sumReserve (lhs.deref dest) (rhs.deref dest)
        (decide ((lhs.deref dest).neg ≠ (rhs.deref dest).neg))) dest.dig difference.dig) ∧
    (∃ product, mpzMulInpl config fill dest lhs rhs = some product ∧ Valid config product ∧
      product.value config = (lhs.deref dest).value config * (rhs.deref dest).value config ∧
      Clears (reserved ((lhs.deref dest).len + (rhs.deref dest).len)) dest.dig product.dig) ∧
    mpzCmp (lhs.deref dest) (rhs.deref dest) =
      compare ((lhs.deref dest).value config) ((rhs.deref dest).value config) := by
  refine ⟨mpzAddInpl_spec free lhsValid rhsValid, mpzSubInpl_spec free lhsValid rhsValid, ?_,
    mpzCmp_eq lhsValid rhsValid⟩
  obtain ⟨product, isProduct, refines, inside, clears⟩ :=
    @mpzMulInpl_refines config fill dest lhs rhs free lhsValid rhsValid
  obtain ⟨value, formed⟩ := mpzMulInpl_spec dest.toMpz lhsValid.formed rhsValid.formed
  rw [← refines] at value formed
  exact ⟨product, isProduct, ⟨inside, formed⟩, value, clears⟩

/-- Twice a negative number of two digits, and its square, with all three in one block. -/
theorem arithmetic_exact_in_place :
    (∃ sum, mpzAddInpl .digits16 (fun _ => 9) ⟨true, false, 2, [1, 1]⟩ .dest .dest = some sum ∧
      sum.value .digits16 = -131074) ∧
    ∃ product, mpzMulInpl .digits16 (fun _ => 9) ⟨true, false, 2, [1, 1]⟩ .dest .dest =
      some product ∧ product.value .digits16 = 4295098369 := by
  have valid : Valid .digits16 ⟨true, false, 2, [1, 1]⟩ :=
    ⟨by decide, by simp [MpzBuf.toMpz, MpzBuf.digits, MpzConfig.digBase, MpzConfig.digits16],
      fun _ => by simp [MpzBuf.toMpz, MpzBuf.digits]⟩
  have number : (⟨true, false, 2, [1, 1]⟩ : MpzBuf).value .digits16 = -65537 := by decide
  obtain ⟨⟨sum, isSum, -, sumValue, -⟩, -, ⟨product, isProduct, -, productValue, -⟩, -⟩ :=
    arithmetic_exact (fun _ => 9) _ .dest .dest rfl valid valid
  refine ⟨⟨sum, isSum, sumValue.trans ?_⟩, product, isProduct, productValue.trans ?_⟩
  · rw [Arg.deref, number]
    rfl
  · rw [Arg.deref, number]
    rfl

end Exact

end InPlace

end MultiPython.Mpz
