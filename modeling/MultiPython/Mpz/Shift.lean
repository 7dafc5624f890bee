import MultiPython.Mpz.AddMul

/-!
# Shifts in place

`mpn_shl` and `mpn_shr` on blocks of memory, and `mpz_shl_inpl` and `mpz_shr_inpl`. A shift to the
left goes from the high end down and a shift to the right from the low end up, so that either may
be done in the block of its operand. The rounding of a negative number is another matter: it looks
at the digits of the operand after they have been shifted.
-/

namespace MultiPython.Mpz.InPlace

open Logic List Option

variable (config : MpzConfig)

/-! ## Digits -/

/-- `n_whole` of `mpn_shl`; the sum in it is an `mp_uint_t`. -/
def shlWhole (wordBits n : Nat) : Nat :=
  (n + config.digSize - 1) % 2 ^ wordBits / config.digSize

/-- `n_part` of `mpn_shl`. -/
def shlPart (n : Nat) : Nat := if n % config.digSize = 0 then config.digSize else n % config.digSize

/-- The loop of `mpn_shl`, from a digit down. -/
def shlLoop (nWhole nPart : Nat) (jdig : Source Nat) : Nat → Nat → List Nat → Option (Nat × List Nat)
  | 0, d, dest => some (d, dest)
  | i + 1, d, dest => do
      let digit ← (jdig.cells dest)[i]?
      let dest ← storeAt dest (i + nWhole)
        [((d ||| digit) >>> (config.digSize - nPart)) % config.digBase]
      shlLoop nWhole nPart jdig i (config.dbl ((d ||| digit) <<< config.digSize)) dest

/-- `mpn_shl`. Without a whole digit the remaining bits are stored before the block. -/
def mpnShl (wordBits : Nat) (dest : List Nat) (jdig : Source Nat) (jlen n : Nat) :
    Option (Nat × List Nat) := do
  let done ← shlLoop config (shlWhole config wordBits n) (shlPart config n) jdig jlen 0 dest
  match shlWhole config wordBits n with
  | 0 => none
  | lower + 1 =>
    let dest ← storeAt done.2 lower
      [(done.1 >>> (config.digSize - shlPart config n)) % config.digBase]
    let dest ← storeAt dest 0 (List.replicate lower 0)
    some (mpnRemoveTrailingZeros dest (jlen + (lower + 1)), dest)

/-- The loop of `mpn_shr`, with as many digits to go as `count`. -/
def shrLoop (nWhole nPart : Nat) (jdig : Source Nat) (jlen : Nat) :
    Nat → Nat → List Nat → Option (List Nat)
  | 0, _, dest => some dest
  | count + 1, position, dest => do
      let digit ← (jdig.cells dest)[position + nWhole]?
      let next ← jdig.below dest jlen (position + nWhole + 1)
      let dest ← storeAt dest position
        [((digit ||| next.getD 0 <<< config.digSize) >>> nPart) % config.digBase]
      shrLoop nWhole nPart jdig jlen count (position + 1) dest

def mpnShr (dest : List Nat) (jdig : Source Nat) (jlen n : Nat) : Option (Nat × List Nat) :=
  if jlen ≤ n / config.digSize then some (0, dest)
  else do
    let dest ← shrLoop config (n / config.digSize) (n % config.digSize) jdig jlen
      (jlen - n / config.digSize) 0 dest
    let last ← dest[jlen - n / config.digSize - 1]?
    some (if last = 0 then jlen - n / config.digSize - 1 else jlen - n / config.digSize, dest)

/-! ## Big integers -/

def mpzShlInpl (wordBits : Nat) (fill : Nat → Nat) (dest : MpzBuf) (lhs : Arg) (rhs : Nat) :
    Option MpzBuf :=
  if (lhs.deref dest).len = 0 ∨ rhs = 0 then mpzSet fill dest lhs
  else do
    let dest ← mpzNeedDig fill dest ((lhs.deref dest).len + shlWhole config wordBits rhs)
    dest.assign (lhs.deref dest).neg
      (mpnShl config wordBits dest.dig lhs.source (lhs.deref dest).len rhs)

/-- Whether `mpz_shr_inpl` rounds up: a digit below the cut, or the part of one, is not zero. -/
def roundsUp (dig : List Nat) (rhs : Nat) : Bool :=
  (dig.take (rhs / config.digSize)).any (fun digit => digit ≠ 0) ||
    (dig[rhs / config.digSize]?.getD 0 &&& (1 <<< (rhs % config.digSize) - 1)) ≠ 0

/-- Add one to the magnitude of a number that has been shifted. -/
def roundUp (dest : MpzBuf) : Option MpzBuf :=
  if dest.len = 0 then
    (storeAt dest.dig 0 [1]).map fun block => { dest with len := 1, dig := block }
  else dest.assign dest.neg (mpnAdd config dest.dig .same dest.len (.apart [1]) 1)

/-- `mpz_shr_inpl`. If `lhs` is the destination, its digits are the shifted ones when they are
looked at. -/
def mpzShrInpl (fill : Nat → Nat) (dest : MpzBuf) (lhs : Arg) (rhs : Nat) : Option MpzBuf :=
  if (lhs.deref dest).len = 0 ∨ rhs = 0 then mpzSet fill dest lhs
  else do
    let dest ← mpzNeedDig fill dest (lhs.deref dest).len
    let dest ← dest.assign (lhs.deref dest).neg
      (mpnShr config dest.dig lhs.source (lhs.deref dest).len rhs)
    if dest.neg && roundsUp config (lhs.deref dest).digits rhs then roundUp config dest
    else some dest

/-! ## What the loops compute -/

section Digits

variable {config} {jdig : Source Nat} {jdigs dest : List Nat} {nWhole nPart d n reserve : Nat}

/-- The loop of `mpn_shl` stores the digits that the loop on lists computes, each in its place
behind the digits that are still to be read. -/
theorem shlLoop_eq (holds : jdigs <+: jdig.cells dest)
    (inside : jdigs.length + nWhole ≤ dest.length) :
    ∃ outs final, shlLoop config nWhole nPart jdig jdigs.length d dest =
        some (final, dest.take nWhole ++ outs.reverse ++ dest.drop (jdigs.length + nWhole)) ∧
      outs.length = jdigs.length ∧
      mpnShlFrom config nPart d jdigs.reverse =
        outs ++ [(final >>> (config.digSize - nPart)) % config.digBase] := by
  induction jdigs using reverseRecOn generalizing d dest with
  | nil => exact ⟨[], d, by simp [shlLoop], rfl, rfl⟩
  | append_singleton jdigs digit ih =>
    rw [length_append, length_singleton] at inside ⊢
    obtain ⟨spare, isCells⟩ := holds
    have read : (jdig.cells dest)[jdigs.length]? = some digit := by
      rw [← isCells, append_assoc, getElem?_append_right (Nat.le_refl _), Nat.sub_self]
      rfl
    obtain ⟨after, stored⟩ := @storeAt_isSome _ dest
      [((d ||| digit) >>> (config.digSize - nPart)) % config.digBase] (jdigs.length + nWhole)
      (by simp; omega)
    have kept := jdig.take_cells_storeAt (by omega : jdigs.length ≤ jdigs.length + nWhole) stored
    have rest : jdigs <+: jdig.cells after := by
      have front : (jdig.cells dest).take jdigs.length = jdigs := by
        rw [← isCells, append_assoc, take_left]
      rw [← front, ← kept]
      exact take_prefix _ _
    obtain ⟨outs, final, loops, length, listed⟩ := @ih after
      (config.dbl ((d ||| digit) <<< config.digSize)) rest
      (by rw [length_of_storeAt stored]; omega)
    refine ⟨((d ||| digit) >>> (config.digSize - nPart)) % config.digBase :: outs, final, ?_, ?_,
      ?_⟩
    · rw [shlLoop, read]
      simp only [bind_eq_bind, bind_some, stored, loops]
      rw [take_storeAt stored (by omega), drop_storeAt stored, length_singleton,
        reverse_cons, Nat.add_right_comm]
      simp
    · rw [length_cons, length]
    · rw [reverse_append, reverse_singleton, singleton_append, mpnShlFrom, listed]
      rfl

/-- `mpn_shl` leaves the shifted digits at the front of the block, if it counts the whole digits
without wrapping around. -/
theorem mpnShl_fills {wordBits : Nat} (positive : 0 < n)
    (noWrap : n + config.digSize - 1 < 2 ^ wordBits) (holds : jdigs <+: jdig.cells dest)
    (fits : jdigs.length + shlWhole config wordBits n ≤ reserve) (inside : reserve ≤ dest.length) :
    Fills reserve dest (Mpz.mpnShl config jdigs n)
      (mpnShl config wordBits dest jdig jdigs.length n) := by
  have whole : shlWhole config wordBits n = (n + config.digSize - 1) / config.digSize := by
    rw [shlWhole, Nat.mod_eq_of_lt noWrap]
  have digSizePositive : 0 < config.digSize := by
    have := config.atLeast
    omega
  have atLeastOne : 0 < shlWhole config wordBits n := by
    rw [whole]
    exact Nat.div_pos (by omega) digSizePositive
  obtain ⟨lower, isWhole⟩ : ∃ lower, shlWhole config wordBits n = lower + 1 :=
    ⟨_, (Nat.succ_pred_eq_of_pos atLeastOne).symm⟩
  obtain ⟨outs, final, loops, length, listed⟩ := @shlLoop_eq config jdig jdigs dest
    (shlWhole config wordBits n) (shlPart config n) 0 holds (by omega)
  rw [isWhole] at fits
  generalize isLow : (final >>> (config.digSize - shlPart config n)) % config.digBase = low at listed
  have shifted : Mpz.mpnShl config jdigs n =
      trimZeros (replicate lower 0 ++ low :: outs.reverse) := by
    have part : (if n % config.digSize = 0 then config.digSize else n % config.digSize) =
        shlPart config n := rfl
    rw [Mpz.mpnShl, ← whole, isWhole, part, listed, reverse_append, Nat.add_sub_cancel]
    rfl
  have size : (replicate lower 0 ++ low :: outs.reverse).length =
      jdigs.length + (lower + 1) := by
    rw [length_append, length_replicate, length_cons, length_reverse, length]
    omega
  -- The remaining bits are stored in front of the digits, and zeros in front of those.
  have lowerTake : (dest.take lower).length = lower := by
    rw [length_take]
    omega
  have cut : dest.take (lower + 1) = dest.take lower ++ [dest[lower]] :=
    take_succ_eq_append_getElem (by omega)
  have lowStored := @storeAt_append _ (dest.take lower) [dest[lower]]
    (outs.reverse ++ dest.drop (jdigs.length + (lower + 1))) [low] rfl
  have zerosStored := @storeAt_append _ [] (dest.take lower)
    ([low] ++ (outs.reverse ++ dest.drop (jdigs.length + (lower + 1)))) (replicate lower 0)
    (by rw [length_replicate, lowerTake])
  rw [lowerTake, ← cut] at lowStored
  rw [mpnShl, bind_eq_bind, loops, bind_some]
  simp only [isWhole, isLow, append_assoc] at lowStored ⊢
  rw [lowStored]
  simp only [nil_append, length_nil] at zerosStored
  simp only [bind_eq_bind, bind_some, zerosStored]
  have fills := @fills_of_trimmed dest (replicate lower 0 ++ low :: outs.reverse) reserve
    (by omega) inside
  rw [size, ← shifted] at fills
  simpa using fills

/-- The loop of `mpn_shr` stores the digits that the loop on lists computes, each where the digits
that are still to be read are behind. -/
theorem shrLoop_eq {jlen position : Nat} (holds : jdigs <+: (jdig.cells dest).drop (position + nWhole))
    (ends : position + nWhole + jdigs.length = jlen)
    (inside : position + jdigs.length ≤ dest.length) :
    shrLoop config nWhole nPart jdig jlen jdigs.length position dest =
      some (dest.take position ++ mpnShrFrom config nPart jdigs ++
        dest.drop (position + jdigs.length)) := by
  induction jdigs generalizing position dest with
  | nil => simp [shrLoop, mpnShrFrom]
  | cons digit jdigs ih =>
    rw [length_cons] at inside ends ⊢
    have behind := prefix_drop_succ holds
    have next : jdig.below dest jlen (position + nWhole + 1) = some jdigs.head? :=
      Source.below_eq behind (by omega)
    obtain ⟨after, stored⟩ := @storeAt_isSome _ dest
      [((digit ||| jdigs.head?.getD 0 <<< config.digSize) >>> nPart) % config.digBase] position
      (by simp; omega)
    have kept := jdig.drop_cells_storeAt (by omega : position < position + 1 + nWhole) stored
    have place : position + nWhole + 1 = position + 1 + nWhole := Nat.add_right_comm _ _ _
    have loops := @ih after (position + 1)
      (by rw [kept, ← place]; exact behind) (by omega)
      (by rw [length_of_storeAt stored]; omega)
    have written : after.take (position + 1) = dest.take position ++
        [((digit ||| jdigs.head?.getD 0 <<< config.digSize) >>> nPart) % config.digBase] := by
      rw [take_add, take_storeAt stored (Nat.le_refl _), drop_storeAt stored]
      rfl
    have unwritten : after.drop (position + 1 + jdigs.length) =
        dest.drop (position + (jdigs.length + 1)) := by
      rw [Nat.add_assoc, Nat.add_comm 1]
      exact drop_storeAt_behind stored (by simp)
    have listed : mpnShrFrom config nPart (digit :: jdigs) =
        ((digit ||| jdigs.head?.getD 0 <<< config.digSize) >>> nPart) % config.digBase ::
          mpnShrFrom config nPart jdigs := by
      cases jdigs with
      | nil => simp [mpnShrFrom]
      | cons above jdigs => rfl
    rw [shrLoop, getElem?_of_prefix_drop holds, next]
    simp only [bind_eq_bind, bind_some, stored, loops, written, unwritten, listed]
    simp

/-- `mpn_shr` leaves the shifted digits at the front of the block. -/
theorem mpnShr_fills (holds : jdigs <+: jdig.cells dest) (fits : jdigs.length ≤ reserve)
    (inside : reserve ≤ dest.length) (jdigsAre : AreDigits config.digBase jdigs) :
    Fills reserve dest (Mpz.mpnShr config jdigs n) (mpnShr config dest jdig jdigs.length n) := by
  rw [Mpz.mpnShr, mpnShr]
  by_cases short : jdigs.length ≤ n / config.digSize
  · rw [if_pos short, if_pos short]
    exact ⟨dest, rfl, nil_prefix, (Nat.max_eq_left inside).symm, rfl⟩
  rw [if_neg short, if_neg short]
  have part : n % config.digSize < config.digSize := Nat.mod_lt _ (by
    have := config.atLeast
    omega)
  obtain ⟨-, length, -⟩ := mpnShrFrom_spec part (jdigsAre.drop (n / config.digSize))
  rw [length_drop] at length
  have dropped : jdigs.drop (n / config.digSize) <+:
      (jdig.cells dest).drop (0 + n / config.digSize) := by
    rw [Nat.zero_add]
    exact holds.drop _
  have loops := @shrLoop_eq config jdig (jdigs.drop (n / config.digSize)) dest
    (n / config.digSize) (n % config.digSize) jdigs.length 0 dropped
    (by rw [length_drop]; omega)
    (by rw [length_drop, Nat.zero_add]; exact (Nat.sub_le _ _).trans (fits.trans inside))
  rw [length_drop, take_zero, nil_append, Nat.zero_add] at loops
  dsimp only
  rw [bind_eq_bind, loops, bind_some]
  generalize mpnShrFrom config (n % config.digSize) (jdigs.drop (n / config.digSize)) = outs at *
  obtain ⟨low, high, rfl⟩ := eq_nil_or_concat' outs |>.resolve_left (by
    rintro rfl
    rw [length_nil] at length
    omega)
  rw [length_append, length_singleton] at length
  have last : (low ++ [high] ++ dest.drop (jdigs.length - n / config.digSize))[jdigs.length -
      n / config.digSize - 1]? = some high := by
    rw [← length, Nat.add_sub_cancel, append_assoc,
      getElem?_append_right (Nat.le_refl _), Nat.sub_self]
    rfl
  have front := @fills_of_front dest (low ++ [high]) reserve
    (by
      rw [length_append, length_singleton, length]
      exact (Nat.sub_le _ _).trans fits) inside
  rw [length_append, length_singleton, length] at front
  rw [last, getLast?_concat]
  simp only [some.injEq, bind_eq_bind, bind_some]
  obtain ⟨block, isBlock, outHolds, keeps⟩ := front
  obtain rfl := (Prod.ext_iff.mp (some.inj isBlock)).2
  split_ifs with zero
  · rw [dropLast_concat]
    exact ⟨_, by rw [← length, Nat.add_sub_cancel], (prefix_append _ _).trans outHolds, keeps⟩
  · exact ⟨_, by rw [length_append, length_singleton, length], outHolds, keeps⟩

end Digits

/-! ## What the functions on big integers compute -/

section Exact

variable {config} {fill : Nat → Nat} {dest : MpzBuf} {lhs : Arg} {n : Nat}

theorem mpzSet_copies (free : dest.fixedDig = false) (valid : Valid config (lhs.deref dest)) :
    ∃ result, mpzSet fill dest lhs = some result ∧ result.len ≤ result.dig.length ∧
      result.toMpz = (lhs.deref dest).toMpz ∧ result.fixedDig = false := by
  obtain ⟨block, needed, grown, keeps⟩ := @mpzNeedDig_spec fill dest free (lhs.deref dest).len
  have size := keeps.length
  have atLeast : (lhs.deref dest).len ≤ reserved (lhs.deref dest).len := Nat.le_max_left _ _
  have holds := lhs.digits_hold grown
  have loaded := @loadAt_within _ (lhs.source.cells block) _ 0 holds (lhs.deref dest).len
    (by rw [valid.length]; omega)
  rw [drop_zero, take_of_length_le (by rw [valid.length])] at loaded
  obtain ⟨after, stored, front, length⟩ := @storeAt_contents _ block [] (lhs.deref dest).digits
    nil_prefix (by rw [valid.length, length_nil]; omega)
  rw [nil_append] at front
  rw [length_nil] at stored
  rw [mpzSet, needed]
  simp only [bind_eq_bind, bind_some, Arg.deref_len, Arg.deref_neg, loaded, stored]
  have digits : after.take (lhs.deref dest).len = (lhs.deref dest).digits := by
    rw [← valid.length]
    exact (prefix_iff_eq_take.mp front).symm
  refine ⟨_, rfl, ?_, ?_, free⟩
  · rw [← valid.length]
    exact front.length_le
  · rw [MpzBuf.toMpz, MpzBuf.digits, digits]
    rfl

theorem mpzSet_spec (free : dest.fixedDig = false) (valid : Valid config (lhs.deref dest)) :
    ∃ result, mpzSet fill dest lhs = some result ∧ Valid config result ∧
      result.value config = (lhs.deref dest).value config := by
  obtain ⟨result, isResult, inside, same, -⟩ := @mpzSet_copies config fill dest lhs free valid
  refine ⟨result, isResult, ⟨inside, ?_⟩, ?_⟩
  · rw [same]
    exact valid.formed
  · rw [MpzBuf.value, same]
    rfl

/-- `mpz_shl_inpl` multiplies by a power of two, unless counting the digits wraps around. -/
theorem mpzShlInpl_spec {wordBits : Nat} (free : dest.fixedDig = false)
    (valid : Valid config (lhs.deref dest))
    (fits : (lhs.deref dest).len = 0 ∨ n = 0 ∨ n + config.digSize - 1 < 2 ^ wordBits) :
    ∃ result, mpzShlInpl config wordBits fill dest lhs n = some result ∧ Valid config result ∧
      result.value config = (lhs.deref dest).value config * 2 ^ n := by
  rw [mpzShlInpl]
  split_ifs with same
  · obtain ⟨result, isResult, formed, value⟩ := @mpzSet_spec config fill dest lhs free valid
    refine ⟨result, isResult, formed, value.trans ?_⟩
    rcases same with none | rfl
    · have zero : (lhs.deref dest).value config = 0 := (MpzT.value_eq_zero_iff valid.formed).mpr
        (valid.len_eq_zero_iff.mp none)
      rw [zero, Int.zero_mul]
    · rw [pow_zero, Int.mul_one]
  · obtain ⟨someDigits, someBits⟩ := not_or.mp same
    have noWrap := (fits.resolve_left someDigits).resolve_left someBits
    obtain ⟨value, are, normal⟩ := mpnShl_spec valid.digits (Nat.pos_of_ne_zero someBits)
    obtain ⟨block, needed, grown, keeps⟩ := @mpzNeedDig_spec fill dest free
      ((lhs.deref dest).len + shlWhole config wordBits n)
    have size := keeps.length
    have atLeast : (lhs.deref dest).len + shlWhole config wordBits n ≤
        reserved ((lhs.deref dest).len + shlWhole config wordBits n) := Nat.le_max_left _ _
    have size_le : reserved ((lhs.deref dest).len + shlWhole config wordBits n) ≤ block.length :=
      size ▸ Nat.le_max_right _ _
    have wellFormed : WellFormed config ⟨(lhs.deref dest).neg, Mpz.mpnShl config
      (lhs.deref dest).digits n⟩ := ⟨are, normal⟩
    have fills := mpnShl_fills (Nat.pos_of_ne_zero someBits) noWrap (lhs.digits_hold grown)
      (by rw [valid.length]; exact atLeast) size_le
    rw [valid.length] at fills
    rw [needed]
    simp only [bind_eq_bind, bind_some, Arg.deref_len, Arg.deref_neg]
    obtain ⟨result, isResult, formed, isValue, -⟩ :=
      (@Fills.leaves dest _ (lhs.deref dest).neg _ _ _ keeps fills).valid wellFormed
    refine ⟨result, isResult, formed, ?_⟩
    rw [isValue, MpzT.value, value, MpzBuf.value_eq, MpzBuf.magnitude]
    cases (lhs.deref dest).neg <;> simp [signOf]

theorem mpzShlInpl_wraps {wordBits : Nat} (large : 8 ≤ wordBits) (isWord : n < 2 ^ wordBits)
    (wraps : ¬((lhs.deref dest).len = 0 ∨ n = 0 ∨ n + config.digSize - 1 < 2 ^ wordBits)) :
    mpzShlInpl config wordBits fill dest lhs n = none := by
  obtain ⟨someDigits, rest⟩ := not_or.mp wraps
  obtain ⟨someBits, tooMany⟩ := not_or.mp rest
  have atLeast := config.atLeast
  have atMost := config.atMost
  have room : 2 ^ 8 ≤ 2 ^ wordBits := Nat.pow_le_pow_right (by omega) large
  have none_ : shlWhole config wordBits n = 0 := by
    have wrapped : (n + config.digSize - 1) % 2 ^ wordBits =
        n + config.digSize - 1 - 2 ^ wordBits := by
      rw [Nat.mod_eq_sub_mod (by omega), Nat.mod_eq_of_lt (by omega)]
    rw [shlWhole, wrapped]
    exact Nat.div_eq_of_lt (by omega)
  have nothing (block : List Nat) (jdig : Source Nat) (jlen : Nat) :
      mpnShl config wordBits block jdig jlen n = none := by
    rw [mpnShl, none_]
    exact bind_fun_none _
  rw [mpzShlInpl, if_neg (by simp [someDigits, someBits])]
  simp only [nothing, MpzBuf.assign, map_none]
  exact bind_fun_none _

/-- The digits that are looked at tell whether a number is a multiple of a power of two. -/
theorem roundsUp_eq_true_iff {dig : List Nat} (digAre : AreDigits config.digBase dig) :
    roundsUp config dig n = true ↔ Nat.ofDigits config.digBase dig % 2 ^ n ≠ 0 := by
  have part : n % config.digSize < config.digSize := Nat.mod_lt _ (by
    have := config.atLeast
    omega)
  have power : 2 ^ n = config.digBase ^ (n / config.digSize) * 2 ^ (n % config.digSize) := by
    rw [MpzConfig.digBase, ← Nat.pow_mul, ← Nat.pow_add, Nat.div_add_mod]
  have high : Nat.ofDigits config.digBase (dig.drop (n / config.digSize)) %
      2 ^ (n % config.digSize) = dig[n / config.digSize]?.getD 0 % 2 ^ (n % config.digSize) := by
    rw [← head?_drop]
    cases dig.drop (n / config.digSize) with
    | nil => rfl
    | cons digit rest =>
      have parts : config.digBase =
          2 ^ (n % config.digSize) * 2 ^ (config.digSize - n % config.digSize) := by
        rw [← Nat.pow_add, Nat.add_sub_cancel' part.le, MpzConfig.digBase]
      rw [Nat.ofDigits_cons, parts, Nat.mul_assoc, Nat.add_mul_mod_self_left]
      rfl
  have positive : 0 < config.digBase ^ (n / config.digSize) := Nat.pow_pos config.digBase_pos
  rw [power, Nat.mod_mul, Nat.ofDigits_mod_pow_eq_ofDigits_take _ config.digBase_pos _ digAre,
    Nat.ofDigits_div_pow_eq_ofDigits_drop _ config.digBase_pos _ digAre, high, roundsUp,
    Bool.or_eq_true, any_ne_zero_iff config.digBase_pos, decide_eq_true_eq, Nat.one_shiftLeft,
    Nat.and_two_pow_sub_one_eq_mod, Ne, Ne, Ne, Nat.add_eq_zero_iff, Nat.mul_eq_zero, not_and_or]
  simp only [positive.ne', false_or]

/-- Adding one to a magnitude, in a block that has room for the sum. -/
theorem roundUp_spec {z : MpzBuf} (valid : Valid config z) (size : 0 < z.dig.length)
    (fits : z.magnitude config + 1 < config.digBase ^ z.dig.length) :
    ∃ result, roundUp config z = some result ∧ Valid config result ∧
      result.value config = signOf z.neg * (z.magnitude config + 1) := by
  have oneAre : AreDigits config.digBase [1] := by simpa using config.one_lt_digBase
  rw [roundUp]
  split_ifs with empty
  · obtain ⟨block, stored, holds, length⟩ := @storeAt_contents _ z.dig [] [1] nil_prefix
      (by simpa using Nat.succ_le_of_lt size)
    rw [length_nil] at stored
    rw [nil_append] at holds
    have front : block.take 1 = [1] := (prefix_iff_eq_take.mp holds).symm
    have none_ : z.magnitude config = 0 := by
      rw [MpzBuf.magnitude, valid.len_eq_zero_iff.mp empty, Nat.ofDigits_nil]
    rw [stored, map_some]
    refine ⟨_, rfl, ⟨by rw [length]; exact size, ?_, ?_⟩, ?_⟩
    · simpa [MpzBuf.toMpz, MpzBuf.digits, front] using oneAre
    · simp [MpzBuf.toMpz, MpzBuf.digits, front, Logic.Normal]
    · rw [MpzBuf.value_eq, MpzBuf.magnitude, MpzBuf.digits, front, none_]
      simp
  · have longer : [1].length ≤ z.digits.length := by
      rw [valid.length, length_singleton]
      omega
    obtain ⟨value, are, normal⟩ := mpnAdd_spec valid.digits oneAre longer
    have formed : WellFormed config ⟨z.neg, Mpz.mpnAdd config z.digits [1]⟩ :=
      ⟨are, normal valid.normal⟩
    rw [Nat.ofDigits_singleton] at value
    have length : (Mpz.mpnAdd config z.digits [1]).length ≤ z.dig.length :=
      formed.normal.length_le config.one_lt_digBase (value ▸ fits)
    have fills := @mpnAdd_fills config .same (.apart [1]) _ _ _ _ valid.digits oneAre
      ( take_prefix z.len z.dig) prefix_rfl length (Nat.le_refl _)
    rw [valid.length] at fills
    have grown : Keeps z.dig.length z.dig z.dig := ⟨(Nat.max_self _).symm, rfl⟩
    obtain ⟨result, isResult, resultValid, isValue, -⟩ :=
      (@Fills.leaves z _ z.neg _ _ _ grown fills).valid formed
    refine ⟨result, isResult, resultValid, ?_⟩
    rw [isValue, MpzT.value, value, MpzBuf.magnitude, signOf]
    cases z.neg <;> simp

/-- What the rounding of `mpz_shr_inpl` looks at: the number, or the shifted number that has taken
its place. -/
def lookedAt (lhs : Arg) (magnitude n : Nat) : Nat :=
  match lhs with
  | .dest => magnitude / 2 ^ n
  | .other _ => magnitude

/-- `mpz_shr_inpl` divides the magnitude, and rounds a negative number up by what it looks at. -/
theorem mpzShrInpl_spec (free : dest.fixedDig = false) (valid : Valid config (lhs.deref dest)) :
    ∃ result, mpzShrInpl config fill dest lhs n = some result ∧ Valid config result ∧
      result.value config = signOf (lhs.deref dest).neg *
        ((lhs.deref dest).magnitude config / 2 ^ n +
          if (lhs.deref dest).neg = true ∧
            lookedAt lhs ((lhs.deref dest).magnitude config) n % 2 ^ n ≠ 0 then 1 else 0) := by
  rw [mpzShrInpl]
  by_cases same : (lhs.deref dest).len = 0 ∨ n = 0
  · obtain ⟨result, isResult, formed, value⟩ := @mpzSet_spec config fill dest lhs free valid
    rw [if_pos same]
    refine ⟨result, isResult, formed, value.trans ?_⟩
    rw [MpzBuf.value_eq]
    rcases same with none_ | rfl
    · have zero : (lhs.deref dest).magnitude config = 0 := by
        rw [MpzBuf.magnitude, valid.len_eq_zero_iff.mp none_, Nat.ofDigits_nil]
      rw [zero]
      cases lhs <;> simp [lookedAt]
    · simp [Nat.mod_one]
  · rw [if_neg same]
    obtain ⟨someDigits, someBits⟩ := not_or.mp same
    obtain ⟨quotient, are, normal⟩ := mpnShr_spec valid.digits valid.normal n
    have formed : WellFormed config ⟨(lhs.deref dest).neg,
      Mpz.mpnShr config (lhs.deref dest).digits n⟩ := ⟨are, normal⟩
    obtain ⟨block, needed, grown, keeps⟩ := @mpzNeedDig_spec fill dest free (lhs.deref dest).len
    have size := keeps.length
    have atLeast : (lhs.deref dest).len ≤ reserved (lhs.deref dest).len := Nat.le_max_left _ _
    have fills := @mpnShr_fills config _ _ _ n (reserved (lhs.deref dest).len)
      (lhs.digits_hold grown) (by rw [valid.length]; exact atLeast) (by omega) valid.digits
    rw [valid.length] at fills
    rw [needed]
    simp only [bind_eq_bind, bind_some, Arg.deref_len, Arg.deref_neg]
    obtain ⟨shifted, isShifted, sign, digits, length, -, shiftedKeeps⟩ :=
      @Fills.leaves dest _ (lhs.deref dest).neg _ _ _ keeps fills
    have shiftedValid : Valid config shifted := valid_of_digits digits length (sign ▸ formed)
    have magnitude : shifted.magnitude config = (lhs.deref dest).magnitude config / 2 ^ n := by
      rw [MpzBuf.magnitude, digits, quotient]
      rfl
    have rounds : roundsUp config (lhs.deref shifted).digits n = true ↔
        lookedAt lhs ((lhs.deref dest).magnitude config) n % 2 ^ n ≠ 0 := by
      cases lhs with
      | dest =>
        rw [Arg.deref, roundsUp_eq_true_iff shiftedValid.digits, lookedAt, ← magnitude]
        rfl
      | other z => exact roundsUp_eq_true_iff valid.digits
    rw [isShifted, bind_some]
    simp only [Bool.and_eq_true, rounds, sign]
    split_ifs with upwards
    · have below := valid.digits.lt_pow config.one_lt_digBase
      have large := config.digBase_large
      have longest : config.digBase ^ (lhs.deref dest).digits.length ≤
          config.digBase ^ shifted.dig.length :=
        Nat.pow_le_pow_right config.digBase_pos (by rw [valid.length, shiftedKeeps.length]; omega)
      have someRoom : 0 < shifted.dig.length := by
        rw [shiftedKeeps.length]
        omega
      have oneDigit : config.digBase ^ 1 ≤ config.digBase ^ shifted.dig.length :=
        Nat.pow_le_pow_right config.digBase_pos someRoom
      have half : (lhs.deref dest).magnitude config / 2 ^ n ≤
          (lhs.deref dest).magnitude config / 2 :=
        Nat.div_le_div_left (Nat.le_self_pow someBits 2) (by omega)
      rw [← MpzBuf.magnitude] at below
      rw [Nat.pow_one] at oneDigit
      obtain ⟨result, isResult, resultValid, value⟩ := roundUp_spec shiftedValid someRoom
        (by rw [magnitude]; omega)
      refine ⟨result, isResult, resultValid, ?_⟩
      rw [value, sign, magnitude]
      push_cast
      rfl
    · refine ⟨shifted, rfl, shiftedValid, ?_⟩
      rw [MpzBuf.value_eq, sign, magnitude, Int.add_zero]
      push_cast
      rfl

theorem signOf_mul_ediv (neg : Bool) (magnitude n : Nat) :
    signOf neg * (magnitude : Int) / 2 ^ n =
      signOf neg * (magnitude / 2 ^ n +
        if neg = true ∧ magnitude % 2 ^ n ≠ 0 then 1 else 0) := by
  cases neg with
  | false => simp [signOf]
  | true =>
    have divides : (2 : Int) ^ n ∣ magnitude ↔ magnitude % 2 ^ n = 0 := by
      rw [← Nat.dvd_iff_mod_eq_zero]
      exact_mod_cast Iff.rfl
    have positive : (0 : Int) < 2 ^ n := by positivity
    simp only [signOf, if_true, Int.neg_one_mul, Int.neg_ediv, divides, true_and, ne_eq,
      Int.sign_eq_one_of_pos positive]
    split_ifs <;> omega

/-- `mpz_shl_inpl` multiplies by `2 ^ n` if and only if the number of digits can be counted, and
`mpz_shr_inpl` yields the floor of the quotient by `2 ^ n` if and only if what the rounding of a
negative number looks at is rounded as the number is. -/
theorem shifts_exact_iff {wordBits : Nat} (fill : Nat → Nat) (dest : MpzBuf) (lhs : Arg)
    (large : 8 ≤ wordBits) (isWord : n < 2 ^ wordBits) (free : dest.fixedDig = false)
    (valid : Valid config (lhs.deref dest)) :
    ((∃ result, mpzShlInpl config wordBits fill dest lhs n = some result ∧
        Valid config result ∧
        result.value config = (lhs.deref dest).value config * 2 ^ n) ↔
      (lhs.deref dest).len = 0 ∨ n = 0 ∨ n + config.digSize - 1 < 2 ^ wordBits) ∧
    ((∃ result, mpzShrInpl config fill dest lhs n = some result ∧ Valid config result ∧
        result.value config = (lhs.deref dest).value config / 2 ^ n) ↔
      (lhs = .dest ∧ dest.neg = true →
        (dest.magnitude config % 2 ^ n = 0 ↔ dest.magnitude config / 2 ^ n % 2 ^ n = 0))) := by
  refine ⟨⟨?_, fun fits => mpzShlInpl_spec free valid fits⟩, ?_⟩
  · rintro ⟨result, isResult, -⟩
    by_contra wraps
    rw [mpzShlInpl_wraps large isWord wraps] at isResult
    cases isResult
  · obtain ⟨result, isResult, resultValid, value⟩ :=
      @mpzShrInpl_spec config fill dest lhs n free valid
    have right : (∃ result, mpzShrInpl config fill dest lhs n = some result ∧
        Valid config result ∧ result.value config = (lhs.deref dest).value config / 2 ^ n) ↔
        result.value config = (lhs.deref dest).value config / 2 ^ n := by
      constructor
      · rintro ⟨other, isOther, -, otherValue⟩
        rw [isResult] at isOther
        cases isOther
        exact otherValue
      · exact fun isValue => ⟨result, isResult, resultValid, isValue⟩
    rw [right, value, MpzBuf.value_eq, signOf_mul_ediv]
    cases lhs with
    | other z => exact ⟨fun _ isDest => Arg.noConfusion isDest.1, fun _ => rfl⟩
    | dest =>
      cases sign : dest.neg with
      | false => simp [sign, Arg.deref]
      | true =>
        simp only [Arg.deref, sign, lookedAt, signOf, true_and, if_true, ne_eq, forall_const]
        split_ifs <;> simp [*]

/-- `-3 >> 1` in place is `-2`: a bit is lost, and another one is left. -/
theorem shifts_exact_iff_in_place :
    ∃ result, mpzShrInpl .digits16 (fun _ => 0) ⟨true, false, 1, [3, 0]⟩ .dest 1 = some result ∧
      Valid .digits16 result ∧ result.value .digits16 = -2 := by
  have valid : Valid .digits16 ⟨true, false, 1, [3, 0]⟩ :=
    ⟨by decide, by simp [MpzBuf.toMpz, MpzBuf.digits, MpzConfig.digBase, MpzConfig.digits16],
      fun _ => by simp [MpzBuf.toMpz, MpzBuf.digits]⟩
  exact (shifts_exact_iff (fun _ => 0) _ .dest (by decide : 8 ≤ 32) (by decide : 1 < 2 ^ 32) rfl
    valid).2.mpr fun _ => by decide

/-- `-1 >> 1` in place is zero: the bit that is lost is the only one. -/
theorem shr_in_place_without_floor :
    (⟨true, false, 1, [1, 0]⟩ : MpzBuf).value .digits16 / 2 ^ 1 = -1 ∧
      ∃ result, mpzShrInpl .digits16 (fun _ => 0) ⟨true, false, 1, [1, 0]⟩ .dest 1 = some result ∧
        result.value .digits16 = 0 :=
  ⟨by decide, ⟨true, false, 0, [0, 0]⟩, by decide, by decide⟩

end Exact

end MultiPython.Mpz.InPlace
