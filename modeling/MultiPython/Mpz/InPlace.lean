import MultiPython.Logic.InPlace
import MultiPython.Mpz.Arith

/-!
# Big integers in memory

An `mpz_t` with the block of memory that its digits are in. A function with a destination stores
into the block of the destination, which may be the block of an operand too, after
`mpz_need_dig` has made it large enough. A function without a result has failed an assertion,
has stored outside of a block, or has left the range of a type.
-/

namespace MultiPython.Mpz.InPlace

open Logic List

/-- `mpz_t`. -/
structure MpzBuf where
  neg : Bool
  /-- `fixed_dig`: the block is not to be replaced by another one. -/
  fixedDig : Bool
  len : Nat
  /-- The block at `dig`, of `alloc` digits. -/
  dig : List Nat
deriving DecidableEq, Repr

/-- The digits in use. -/
def MpzBuf.digits (z : MpzBuf) : List Nat := z.dig.take z.len

/-- The big integer that is in the block. -/
def MpzBuf.toMpz (z : MpzBuf) : MpzT := ⟨z.neg, z.digits⟩

@[simp]
theorem MpzBuf.toMpz_neg (z : MpzBuf) : z.toMpz.neg = z.neg := rfl

@[simp]
theorem MpzBuf.toMpz_dig (z : MpzBuf) : z.toMpz.dig = z.digits := rfl

variable (config : MpzConfig)

/-- The integer that a big integer stands for. -/
def MpzBuf.value (z : MpzBuf) : Int := z.toMpz.value config

/-- The factor that a sign is. -/
def signOf (neg : Bool) : Int := if neg then -1 else 1

/-- What it stands for without its sign. -/
def MpzBuf.magnitude (z : MpzBuf) : Nat := Nat.ofDigits config.digBase z.digits

/-- The digits in use are in the block, below the base and without leading zeros. The sign of
zero may be either. -/
structure Valid (z : MpzBuf) : Prop where
  inside : z.len ≤ z.dig.length
  formed : WellFormed config z.toMpz

/-- An operand of a function with a destination: the destination, or another big integer. -/
inductive Arg where
  | dest
  | other (z : MpzBuf)

namespace Arg

/-- The big integer that an operand is. -/
def deref (dest : MpzBuf) : Arg → MpzBuf
  | .dest => dest
  | .other z => z

/-- The block that the digits of an operand are read from. -/
def source : Arg → Source Nat
  | .dest => .same
  | .other z => .apart z.dig

end Arg

/-! ## Memory -/

def minAlloc : Nat := 2

/-- The size that `mpz_need_dig` asks for. -/
def reserved (need : Nat) : Nat := max need minAlloc

/-- `mpz_need_dig`. The digits of a new block that have not been in the old one may be anything. -/
def mpzNeedDig (fill : Nat → Nat) (z : MpzBuf) (need : Nat) : Option MpzBuf :=
  if z.dig.length < reserved need then
    if z.fixedDig then none else some { z with dig := resized fill (reserved need) z.dig }
  else some z

def mpzClone (src : MpzBuf) : Option MpzBuf :=
  if src.dig = [] then none else some { src with fixedDig := false }

def mpzSet (fill : Nat → Nat) (dest : MpzBuf) (src : Arg) : Option MpzBuf := do
  let dest ← mpzNeedDig fill dest (src.deref dest).len
  let digits ← loadAt (src.source.cells dest.dig) 0 (src.deref dest).len
  let block ← storeAt dest.dig 0 digits
  some { dest with neg := (src.deref dest).neg, len := (src.deref dest).len, dig := block }

/-- `mpn_remove_trailing_zeros`, on the first `count` digits of a block. -/
def mpnRemoveTrailingZeros (dig : List Nat) (count : Nat) : Nat := (trimZeros (dig.take count)).length

/-- Assign the sign, the length and the digits that a function on digits has returned. -/
def MpzBuf.assign (dest : MpzBuf) (neg : Bool) (outcome : Option (Nat × List Nat)) :
    Option MpzBuf :=
  outcome.map fun done => { dest with neg := neg, len := done.1, dig := done.2 }

/-- Reserve digits in a destination and let a function on digits fill them. -/
def MpzBuf.fillWith (fill : Nat → Nat) (dest : MpzBuf) (need : Nat) (neg : Bool)
    (run : List Nat → Option (Nat × List Nat)) : Option MpzBuf := do
  let dest ← mpzNeedDig fill dest need
  dest.assign neg (run dest.dig)

/-! ## What stays in a block -/

/-- A block after a function has reserved digits in it: it is as large as it has to be, and what is
behind the reserved digits is as it was. -/
structure Keeps (reserve : Nat) (before after : List Nat) : Prop where
  length : after.length = max before.length reserve
  behind : after.drop reserve = before.drop reserve

/-- A function on digits leaves digits at the front of a block, and returns how many they are. -/
def Fills (reserve : Nat) (dest out : List Nat) (outcome : Option (Nat × List Nat)) : Prop :=
  ∃ block, outcome = some (out.length, block) ∧ out <+: block ∧ Keeps reserve dest block

/-- A function with a destination leaves a big integer in it. -/
def Leaves (reserve : Nat) (dest : MpzBuf) (neg : Bool) (out : List Nat)
    (outcome : Option MpzBuf) : Prop :=
  ∃ result, outcome = some result ∧ result.neg = neg ∧ result.digits = out ∧
    result.len = out.length ∧ result.fixedDig = dest.fixedDig ∧ Keeps reserve dest.dig result.dig

section Memory

variable {config} {fill : Nat → Nat} {dest z : MpzBuf} {need : Nat}

theorem mpzNeedDig_spec (free : dest.fixedDig = false) (need : Nat) :
    ∃ block, mpzNeedDig fill dest need = some { dest with dig := block } ∧ dest.dig <+: block ∧
      Keeps (reserved need) dest.dig block := by
  rw [mpzNeedDig]
  split_ifs with short fixed
  · rw [free] at fixed
    cases fixed
  · refine ⟨_, rfl, prefix_resized prefix_rfl short.le fill, ?_, ?_⟩
    · rw [length_resized, Nat.max_eq_right short.le]
    · rw [drop_of_length_le short.le, drop_of_length_le (length_resized _ _ _).le]
  · exact ⟨dest.dig, rfl, prefix_rfl, (Nat.max_eq_left (by omega)).symm, rfl⟩

theorem Valid.digits (valid : Valid config z) : AreDigits config.digBase z.digits :=
  valid.formed.digits

theorem MpzBuf.value_eq (z : MpzBuf) :
    z.value config = signOf z.neg * z.magnitude config := by
  rw [MpzBuf.value, MpzT.value, MpzBuf.magnitude, signOf]
  cases hasSign : z.neg <;> simp [MpzBuf.toMpz, hasSign]

theorem Valid.normal (valid : Valid config z) : Normal z.digits := valid.formed.normal

theorem Valid.length (valid : Valid config z) : z.digits.length = z.len := by
  rw [MpzBuf.digits, length_take, Nat.min_eq_left valid.inside]

theorem Arg.digits_hold (arg : Arg) {block : List Nat} (grown : dest.dig <+: block) :
    (arg.deref dest).digits <+: arg.source.cells block := by
  cases arg with
  | dest => exact ( take_prefix _ _).trans grown
  | other z => exact take_prefix _ _

theorem Valid.len_eq_zero_iff (valid : Valid config z) : z.len = 0 ↔ z.digits = [] := by
  rw [← valid.length, length_eq_zero_iff]

@[simp]
theorem Arg.deref_len (arg : Arg) (block : List Nat) :
    (arg.deref { dest with dig := block }).len = (arg.deref dest).len := by
  cases arg <;> rfl

@[simp]
theorem Arg.deref_neg (arg : Arg) (block : List Nat) :
    (arg.deref { dest with dig := block }).neg = (arg.deref dest).neg := by
  cases arg <;> rfl

theorem fills_of_front {block out : List Nat} {reserve : Nat} (fits : out.length ≤ reserve)
    (inside : reserve ≤ block.length) :
    Fills reserve block out (some (out.length, out ++ block.drop out.length)) := by
  refine ⟨_, rfl, prefix_append _ _, ?_, ?_⟩
  · rw [length_append, length_drop, Nat.max_eq_left inside]
    omega
  · obtain ⟨more, rfl⟩ := Nat.exists_eq_add_of_le fits
    rw [← drop_drop, drop_left, drop_drop]

theorem fills_of_trimmed {block outs : List Nat} {reserve : Nat} (fits : outs.length ≤ reserve)
    (inside : reserve ≤ block.length) :
    Fills reserve block (trimZeros outs)
      (some (mpnRemoveTrailingZeros (outs ++ block.drop outs.length) outs.length,
        outs ++ block.drop outs.length)) := by
  obtain ⟨after, isAfter, holds, keeps⟩ := fills_of_front fits inside
  cases isAfter
  have trimmed : trimZeros outs <+: outs := rdropWhile_prefix _ _
  exact ⟨_, by rw [mpnRemoveTrailingZeros, take_left], trimmed.trans holds, keeps⟩

theorem Keeps.trans {before middle after : List Nat} {reserve : Nat}
    (first : Keeps reserve before middle) (second : Keeps reserve middle after) :
    Keeps reserve before after :=
  ⟨by rw [second.length, first.length, Nat.max_assoc, Nat.max_self],
    second.behind.trans first.behind⟩

theorem Fills.leaves {reserve : Nat} {neg : Bool} {block out : List Nat}
    {outcome : Option (Nat × List Nat)} (grown : Keeps reserve dest.dig block)
    (fills : Fills reserve block out outcome) :
    Leaves reserve dest neg out (MpzBuf.assign { dest with dig := block } neg outcome) := by
  obtain ⟨after, rfl, holds, keeps⟩ := fills
  exact ⟨_, rfl, rfl, (prefix_iff_eq_take.mp holds).symm, rfl, rfl, grown.trans keeps⟩

theorem fillWith_leaves (free : dest.fixedDig = false) {neg : Bool} {out : List Nat}
    {run : List Nat → Option (Nat × List Nat)}
    (fills : ∀ block, dest.dig <+: block → reserved need ≤ block.length →
      Fills (reserved need) block out (run block)) :
    Leaves (reserved need) dest neg out (dest.fillWith fill need neg run) := by
  obtain ⟨block, needed, grown, keeps⟩ := @mpzNeedDig_spec fill dest free need
  have size : reserved need ≤ block.length := by
    rw [keeps.length]
    exact Nat.le_max_right _ _
  rw [MpzBuf.fillWith, needed]
  exact Fills.leaves keeps (fills block grown size)

theorem valid_of_digits {out : List Nat} (digits : z.digits = out) (length : z.len = out.length)
    (formed : WellFormed config ⟨z.neg, out⟩) : Valid config z := by
  subst digits
  refine ⟨?_, formed⟩
  rw [length, MpzBuf.digits, length_take]
  exact Nat.min_le_right _ _

theorem Leaves.valid {reserve : Nat} {neg : Bool} {out : List Nat} {outcome : Option MpzBuf}
    (leaves : Leaves reserve dest neg out outcome) (formed : WellFormed config ⟨neg, out⟩) :
    ∃ result, outcome = some result ∧ Valid config result ∧
      result.value config = MpzT.value config ⟨neg, out⟩ ∧
      Keeps reserve dest.dig result.dig := by
  obtain ⟨result, rfl, rfl, rfl, length, -, keeps⟩ := leaves
  exact ⟨result, rfl, valid_of_digits rfl length formed, rfl, keeps⟩

end Memory

end MultiPython.Mpz.InPlace
