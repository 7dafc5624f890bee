import MultiPython.Vm.Call
import MultiPython.Vm.EmitPasses

/-!
# Variable-length integers

The buffers in which `py/emitbc.c` puts the groups of a number together, and the functions that
read them again: `mp_decode_uint` and `mp_decode_uint_skip` of `py/bc.c`, and of `py/vm.c` the macro
`DECODE_UINT` and the loop of `MP_BC_LOAD_CONST_SMALL_INT`.
-/

namespace MultiPython.Vm

open List Option

section Model

variable (config : EmitConfig)

def EmitConfig.bitsPerWord : Nat := 8 * config.bytesPerWord

/-- The loop of `emit_write_uint`, with the room that is left in `buf` before `p`. It fails if it
stores a byte before the buffer. -/
def storeUint : Nat → Nat → List Nat → Option (List Nat)
  | 0, _, _ => none
  | room + 1, val, p =>
    if val / 128 = 0 then some (val % 128 :: p)
    else storeUint room (val / 128) (val % 128 :: p)

def emitWriteUint (val : Nat) : Option (List Nat) :=
  (storeUint config.bytesForInt val []).map markGroups

/-- The loop of `emit_write_bytecode_byte_int` and the byte for the sign, with the room that is left
in `buf` before `p`. -/
def storeInt : Nat → Int → List Nat → Option (List Nat)
  | 0, _, _ => none
  | room + 1, num, p =>
    let low := (num % 128).toNat
    let num := num / 128
    if num ≠ 0 ∧ num ≠ -1 then storeInt room num (low :: p)
    else if num = -1 ∧ low < 64 then if room = 0 then none else some (127 :: low :: p)
    else if num = 0 ∧ 64 ≤ low then if room = 0 then none else some (0 :: low :: p)
    else some (low :: p)

def emitWriteBytecodeByteInt (b1 : Nat) (num : Int) : Option (List Nat) :=
  (storeInt config.bytesForInt num []).map fun groups => b1 :: markGroups groups

/-- A loop that reads the groups of a number, and the bytes behind them. It fails if it reads behind
the code. -/
def decodeLoop (join : Nat → Nat → Nat) : List Nat → Nat → Option (Nat × List Nat)
  | [], _ => none
  | val :: p, unum =>
    if val &&& 0x80 ≠ 0 then decodeLoop join p (join unum val) else some (join unum val, p)

/-- `(unum << 7) | (val & 0x7f)`, as a word. -/
def orGroup (unum val : Nat) : Nat := (unum <<< 7) % 2 ^ config.bitsPerWord ||| (val &&& 0x7f)

/-- `(unum << 7) + (val & 0x7f)`, as a word. -/
def addGroup (unum val : Nat) : Nat := ((unum <<< 7) + (val &&& 0x7f)) % 2 ^ config.bitsPerWord

/-- `mp_decode_uint`: the number, and where it stops. -/
def mpDecodeUint (ptr : List Nat) : Option (Nat × List Nat) := decodeLoop (orGroup config) ptr 0

/-- `DECODE_UINT`: the number, and where it stops. -/
def decodeUintAt (ip : List Nat) : Option (Nat × List Nat) := decodeLoop (addGroup config) ip 0

def mpDecodeUintSkip : List Nat → Option (List Nat)
  | [] => none
  | val :: ptr => if val &&& 0x80 ≠ 0 then mpDecodeUintSkip ptr else some ptr

/-- What `MP_BC_LOAD_CONST_SMALL_INT` reads: the number is `-1` or `0` before its first group. -/
def loadConstSmallInt : List Nat → Option (Int × List Nat)
  | [] => none
  | first :: ip =>
    let num := if first &&& 0x40 ≠ 0 then 2 ^ config.bitsPerWord - 1 else 0
    (decodeLoop (orGroup config) (first :: ip) num).map fun read =>
      (Int.bmod read.1 (2 ^ config.bitsPerWord), read.2)

/-- What is written is read again, whatever is behind it, and fits the buffer it is put together
in. -/
structure VarintsRoundTrip : Prop where
  uint : ∀ val < 2 ^ config.bitsPerWord,
    emitWriteUint config val = some (uintBytes config val) ∧
      (uintBytes config val).length ≤ config.bytesForInt ∧
      ∀ rest, mpDecodeUint config (uintBytes config val ++ rest) = some (val, rest) ∧
        decodeUintAt config (uintBytes config val ++ rest) = some (val, rest) ∧
        mpDecodeUintSkip (uintBytes config val ++ rest) = some rest
  int : ∀ b1 num, -2 ^ (config.bitsPerWord - 1) ≤ num → num < 2 ^ (config.bitsPerWord - 1) →
    emitWriteBytecodeByteInt config b1 num = some (b1 :: intBytes config num) ∧
      (intBytes config num).length ≤ config.bytesForInt ∧
      ∀ rest, loadConstSmallInt config (intBytes config num ++ rest) = some (num, rest)

end Model

/-! ## Groups -/

/-- Groups of seven bits, at least one. -/
structure Groups (groups : List Nat) : Prop where
  some_ : groups ≠ []
  small : ∀ group ∈ groups, group < 2 ^ 7

theorem Groups.tail {group next : Nat} {groups : List Nat}
    (are : Groups (group :: next :: groups)) : Groups (next :: groups) where
  some_ := cons_ne_nil _ _
  small other member := are.small other (mem_cons_of_mem _ member)

theorem byte_bits {group : Nat} (small : group < 2 ^ 7) :
    (group &&& 0x80 = 0 ∧ (group + 128) &&& 0x80 ≠ 0) ∧
      (group &&& 0x7f = group ∧ (group + 128) &&& 0x7f = group) ∧
      ((group &&& 0x40 ≠ 0) ↔ 64 ≤ group) ∧ (((group + 128) &&& 0x40 ≠ 0) ↔ 64 ≤ group) := by
  have all : ∀ group < 128, (group &&& 0x80 = 0 ∧ (group + 128) &&& 0x80 ≠ 0) ∧
      (group &&& 0x7f = group ∧ (group + 128) &&& 0x7f = group) ∧
      ((group &&& 0x40 ≠ 0) ↔ 64 ≤ group) ∧ (((group + 128) &&& 0x40 ≠ 0) ↔ 64 ≤ group) := by
    decide
  exact all group small

/-- A function that puts one more group behind a number, as words. -/
def Joins (modulus : Nat) (join : Nat → Nat → Nat) : Prop :=
  ∀ unum val, join unum val = (unum * 2 ^ 7 + (val &&& 0x7f)) % modulus

theorem addGroup_joins (config : EmitConfig) :
    Joins (2 ^ config.bitsPerWord) (addGroup config) := by
  intro unum val
  rw [addGroup, Nat.shiftLeft_eq]

theorem orGroup_joins (config : EmitConfig) : Joins (2 ^ config.bitsPerWord) (orGroup config) := by
  intro unum val
  obtain ⟨bits, isBits⟩ : ∃ bits, config.bitsPerWord = 7 + bits := by
    rw [EmitConfig.bitsPerWord, EmitConfig.bytesPerWord]
    split_ifs
    · exact ⟨57, rfl⟩
    · exact ⟨25, rfl⟩
  have small : (val &&& 0x7f) < 2 ^ 7 := Nat.lt_succ_of_le Nat.and_le_right
  have high : (unum * 2 ^ 7) % 2 ^ (7 + bits) = 2 ^ 7 * (unum % 2 ^ bits) := by
    rw [Nat.pow_add, Nat.mul_comm unum, Nat.mul_mod_mul_left]
  have together : 2 ^ 7 * (unum % 2 ^ bits) + (val &&& 0x7f) < 2 ^ (7 + bits) := by
    have below := Nat.mod_lt unum (Nat.two_pow_pos bits)
    rw [Nat.pow_add]
    omega
  rw [orGroup, Nat.shiftLeft_eq, isBits, high, ← Nat.two_pow_add_eq_or_of_lt small, Nat.add_mod,
    high, Nat.mod_eq_of_lt (small.trans_le (Nat.pow_le_pow_right (by omega) (by omega))),
    Nat.mod_eq_of_lt together]

section Decoding

variable {groups : List Nat} (are : Groups groups) (rest : List Nat)

include are

theorem decodeLoop_groups {modulus : Nat} {join : Nat → Nat → Nat} (joins : Joins modulus join)
    (front : Nat) :
    decodeLoop join (markGroups groups ++ rest) front =
      some (groupsValue groups front % modulus, rest) := by
  induction groups generalizing front with
  | nil => exact absurd rfl are.some_
  | cons group groups ih =>
    obtain ⟨⟨unmarked, marked⟩, ⟨low, lowMarked⟩, -⟩ :=
      byte_bits (are.small group mem_cons_self)
    cases groups with
    | nil =>
      rw [markGroups, singleton_append, decodeLoop, if_neg (not_not.mpr unmarked), joins,
        low]
      rfl
    | cons next groups =>
      rw [markGroups, cons_append, decodeLoop, if_pos marked, joins, lowMarked,
        ih are.tail, groupsValue_mod]
      · rfl
      · exact cons_ne_nil _ _

theorem mpDecodeUintSkip_groups :
    mpDecodeUintSkip (markGroups groups ++ rest) = some rest := by
  induction groups with
  | nil => exact absurd rfl are.some_
  | cons group groups ih =>
    obtain ⟨⟨unmarked, marked⟩, -⟩ := byte_bits (are.small group mem_cons_self)
    cases groups with
    | nil => rw [markGroups, singleton_append, mpDecodeUintSkip, if_neg (not_not.mpr unmarked)]
    | cons next groups =>
      rw [markGroups, cons_append, mpDecodeUintSkip, if_pos marked, ih are.tail]
      exact cons_ne_nil _ _

end Decoding

/-! ## Unsigned numbers -/

theorem storeUint_eq {room val : Nat} (p : List Nat) (fits : val < (2 ^ 7) ^ (room + 1)) :
    storeUint (room + 1) val p = some (uintGroups (room + 1) val p) ∧
      (uintGroups (room + 1) val p).length ≤ room + 1 + p.length := by
  induction room generalizing val p with
  | zero =>
    have last : val / 128 = 0 := by omega
    rw [storeUint, uintGroups, if_pos last, if_pos last]
    exact ⟨rfl, by simp [Nat.add_comm]⟩
  | succ room ih =>
    rw [storeUint, uintGroups]
    by_cases last : val / 128 = 0
    · rw [if_pos last, if_pos last]
      exact ⟨rfl, by simp only [length_cons]; omega⟩
    · have fewer : val / 128 < (2 ^ 7) ^ (room + 1) := by
        rw [Nat.pow_succ] at fits
        exact Nat.div_lt_of_lt_mul (by rwa [Nat.mul_comm])
      obtain ⟨stores, length⟩ := ih (val % 128 :: p) fewer
      rw [if_neg last, if_neg last, stores]
      rw [length_cons] at length
      exact ⟨rfl, by omega⟩

/-! ## Signed numbers -/

/-- The number of which groups are the low end. -/
def signedValue (groups : List Nat) (front : Int) : Int :=
  groups.foldl (fun num (group : Nat) => num * 2 ^ 7 + (group : Int)) front

/-- What the top group shows of the sign. -/
def shownSign : List Nat → Int
  | [] => 0
  | top :: _ => if 64 ≤ top then -1 else 0

/-- The groups of a number that fits the buffer. -/
structure Stored (room : Nat) (num : Int) (p groups : List Nat) : Prop where
  written : intGroups room num p = groups
  stores : storeInt room num p = some groups
  length : groups.length ≤ room + p.length
  are : Groups groups
  value : signedValue groups (shownSign groups) = signedValue p num

theorem storeInt_stored {room : Nat} {num : Int} {p : List Nat} (small : ∀ group ∈ p, group < 2 ^ 7)
    (atLeast : -(64 * 128 ^ room) ≤ num) (below : num < 64 * 128 ^ room) :
    ∃ groups, Stored (room + 1) num p groups := by
  obtain ⟨low, isLow, lowSmall⟩ : ∃ low, low = (num % 128).toNat ∧ low < 128 := ⟨_, rfl, by omega⟩
  have split : num = num / 128 * 128 + low := by omega
  have more : ∀ group ∈ low :: p, group < 2 ^ 7 := forall_mem_cons.mpr ⟨lowSmall, small⟩
  induction room generalizing num p low with
  | zero =>
    -- one byte is left, and the number shows its sign in it
    rw [Int.pow_zero] at atLeast below
    refine ⟨low :: p, ?_, ?_, ?_, ⟨cons_ne_nil _ _, more⟩, ?_⟩
    · rw [intGroups, ← isLow, if_neg (by omega), if_neg (by omega), if_neg (by omega)]
    · rw [storeInt, ← isLow, if_neg (by omega), if_neg (by omega), if_neg (by omega)]
    · simp [Nat.add_comm]
    · rw [shownSign, signedValue, foldl_cons]
      congr 1
      split_ifs <;> omega
  | succ room ih =>
    by_cases next : num / 128 ≠ 0 ∧ num / 128 ≠ -1
    · rw [Int.pow_succ] at atLeast below
      obtain ⟨groups, stored⟩ := @ih (num / 128) (low :: p) more (by omega) (by omega) _ rfl
        (by omega) (by omega)
        (forall_mem_cons.mpr ⟨by omega, more⟩)
      refine ⟨groups, ?_, ?_, ?_, stored.are, ?_⟩
      · rw [intGroups, ← isLow, if_pos next, stored.written]
      · rw [storeInt, ← isLow, if_pos next, stored.stores]
      · have length := stored.length
        simp only [length_cons] at length
        omega
      · rw [stored.value, signedValue, foldl_cons]
        congr 1
        omega
    · by_cases negative : num / 128 = -1 ∧ low < 64
      · refine ⟨127 :: low :: p, ?_, ?_, ?_, ⟨cons_ne_nil _ _, ?_⟩, ?_⟩
        · rw [intGroups, ← isLow, if_neg next, if_pos negative]
        · rw [storeInt, ← isLow, if_neg next, if_pos negative, if_neg (Nat.succ_ne_zero _)]
        · simp only [length_cons]
          omega
        · exact forall_mem_cons.mpr ⟨by omega, more⟩
        · rw [shownSign, signedValue, foldl_cons, foldl_cons, if_pos (by omega)]
          congr 1
          omega
      · by_cases positive : num / 128 = 0 ∧ 64 ≤ low
        · refine ⟨0 :: low :: p, ?_, ?_, ?_, ⟨cons_ne_nil _ _, ?_⟩, ?_⟩
          · rw [intGroups, ← isLow, if_neg next, if_neg negative, if_pos positive]
          · rw [storeInt, ← isLow, if_neg next, if_neg negative, if_pos positive,
              if_neg (Nat.succ_ne_zero _)]
          · simp only [length_cons]
            omega
          · exact forall_mem_cons.mpr ⟨by omega, more⟩
          · rw [shownSign, signedValue, foldl_cons, foldl_cons, if_neg (by omega)]
            congr 1
            omega
        · refine ⟨low :: p, ?_, ?_, ?_, ⟨cons_ne_nil _ _, more⟩, ?_⟩
          · rw [intGroups, ← isLow, if_neg next, if_neg negative, if_neg positive]
          · rw [storeInt, ← isLow, if_neg next, if_neg negative, if_neg positive]
          · simp only [length_cons]
            omega
          · rw [shownSign, signedValue, foldl_cons]
            congr 1
            split_ifs <;> omega

theorem signedValue_add (groups : List Nat) (front more : Int) :
    signedValue groups (front + more) =
      signedValue groups front + more * (2 ^ 7) ^ groups.length := by
  induction groups generalizing front more with
  | nil => simp [signedValue]
  | cons group groups ih =>
    have next := ih (front * 2 ^ 7 + group) (more * 2 ^ 7)
    have moved : (front + more) * 2 ^ 7 + (group : Int) =
        front * 2 ^ 7 + group + more * 2 ^ 7 := by ring
    have power : more * ((2 : Int) ^ 7) ^ (groups.length + 1) =
        more * 2 ^ 7 * (2 ^ 7) ^ groups.length := by ring
    rw [length_cons, power]
    simp only [signedValue, foldl_cons] at next ⊢
    rw [moved, next]

theorem signedValue_natCast (groups : List Nat) (front : Nat) :
    signedValue groups front = groupsValue groups front := by
  induction groups generalizing front with
  | nil => rfl
  | cons group groups ih =>
    have next := ih (front * 2 ^ 7 + group)
    simp only [signedValue, groupsValue, foldl_cons] at next ⊢
    exact_mod_cast next

/-- The groups of a word are read as the word, if they show its sign. -/
theorem loadConstSmallInt_groups (config : EmitConfig) {groups : List Nat} (are : Groups groups)
    (rest : List Nat) {num : Int} (value : signedValue groups (shownSign groups) = num)
    (atLeast : -2 ^ (config.bitsPerWord - 1) ≤ num)
    (below : num < 2 ^ (config.bitsPerWord - 1)) :
    loadConstSmallInt config (markGroups groups ++ rest) = some (num, rest) := by
  obtain ⟨first, bytes, isFirst, sign⟩ : ∃ first bytes, markGroups groups = first :: bytes ∧
      shownSign groups = if first &&& 0x40 ≠ 0 then -1 else 0 := by
    cases groups with
    | nil => exact absurd rfl are.some_
    | cons group groups =>
      obtain ⟨-, -, here, hereMarked⟩ := byte_bits (are.small group mem_cons_self)
      cases groups with
      | nil => exact ⟨group, [], rfl, by simp only [shownSign, here]⟩
      | cons next groups => exact ⟨group + 128, _, rfl, by simp only [shownSign, hereMarked]⟩
  have reads := decodeLoop_groups are rest (orGroup_joins config)
    (if first &&& 0x40 ≠ 0 then 2 ^ config.bitsPerWord - 1 else 0)
  obtain ⟨times, front⟩ : ∃ times : Int,
      (((if first &&& 0x40 ≠ 0 then 2 ^ config.bitsPerWord - 1 else 0 : Nat)) : Int) =
        shownSign groups + times * (2 ^ config.bitsPerWord : Nat) := by
    rw [sign]
    split_ifs
    · exact ⟨1, by have := Nat.two_pow_pos config.bitsPerWord; omega⟩
    · exact ⟨0, by simp⟩
  have modulus : (2 ^ config.bitsPerWord : Nat) = 2 * 2 ^ (config.bitsPerWord - 1) := by
    rw [← Nat.pow_succ']
    congr 1
    rw [EmitConfig.bitsPerWord, EmitConfig.bytesPerWord]
    split_ifs <;> rfl
  have cast : ((2 ^ (config.bitsPerWord - 1) : Nat) : Int) = 2 ^ (config.bitsPerWord - 1) := by
    push_cast
    rfl
  rw [isFirst, cons_append] at reads ⊢
  rw [loadConstSmallInt, reads, map_some, Int.natCast_emod, Int.emod_bmod,
    ← signedValue_natCast, front, signedValue_add, value, Int.mul_right_comm,
    Int.add_mul_bmod_self_right, Int.bmod_eq_of_le_mul_two]
  · omega
  · omega

/-! ## Round trips -/

/-- Every word that is written is read again, up to where it was written. -/
theorem varints_roundTrip (config : EmitConfig) : VarintsRoundTrip config := by
  obtain ⟨room, isRoom, uintFits, intFits⟩ : ∃ room, config.bytesForInt = room + 1 ∧
      2 ^ config.bitsPerWord ≤ (2 ^ 7) ^ (room + 1) ∧
      2 ^ (config.bitsPerWord - 1) ≤ 64 * 128 ^ room := by
    rw [EmitConfig.bytesForInt, EmitConfig.bitsPerWord, EmitConfig.bytesPerWord]
    split_ifs
    · exact ⟨9, rfl, by decide, by decide⟩
    · exact ⟨4, rfl, by decide, by decide⟩
  constructor
  · intro val isWord
    obtain ⟨stores, length⟩ := storeUint_eq [] (isWord.trans_le uintFits)
    have are : Groups (uintGroups (room + 1) val []) :=
      ⟨uintGroups_ne_nil _ _ (Or.inl (Nat.succ_ne_zero _)),
        uintGroups_small _ _ fun _ member => absurd member not_mem_nil⟩
    have value : groupsValue (uintGroups (room + 1) val []) 0 % 2 ^ config.bitsPerWord = val := by
      rw [uintGroups_value, Nat.mod_eq_of_lt (isWord.trans_le uintFits)]
      exact Nat.mod_eq_of_lt isWord
    have written : uintBytes config val = markGroups (uintGroups (room + 1) val []) := by
      rw [uintBytes, isRoom]
    rw [written]
    refine ⟨?_, ?_, fun rest => ⟨?_, ?_, ?_⟩⟩
    · rw [emitWriteUint, isRoom, stores, map_some]
    · rw [length_markGroups, isRoom]
      exact length
    · rw [mpDecodeUint, decodeLoop_groups are rest (orGroup_joins config), value]
    · rw [decodeUintAt, decodeLoop_groups are rest (addGroup_joins config), value]
    · exact mpDecodeUintSkip_groups are rest
  · intro b1 num atLeast below
    have bound : (2 : Int) ^ (config.bitsPerWord - 1) ≤ 64 * 128 ^ room := by exact_mod_cast intFits
    obtain ⟨groups, stored⟩ := @storeInt_stored room num []
      (fun _ member => absurd member not_mem_nil) (by omega) (below.trans_le bound)
    have written : intBytes config num = markGroups groups := by
      rw [intBytes, isRoom, stored.written]
    rw [written]
    refine ⟨?_, ?_, fun rest => ?_⟩
    · rw [emitWriteBytecodeByteInt, isRoom, stored.stores, map_some]
    · rw [length_markGroups, isRoom]
      exact stored.length
    · exact loadConstSmallInt_groups config stored.are rest stored.value atLeast below

end MultiPython.Vm
