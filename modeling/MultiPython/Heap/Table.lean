import MultiPython.Logic.Marking
import MultiPython.Logic.Run

/-!
# The collector's memory and its tables

`MpStateMem` is the part of `mp_state_mem_t` that `py/gc.c` works on, together
with the bytes of the machine's memory. The allocation table, the finaliser
table and the pool are regions of that one memory, so an access that runs past
the end of a region reads whatever lies behind it, as the C code does.

The table macros are the source's, one definition each. `kind_anyToFree` and its
siblings say what each of them does to every entry, in whatever region the entry
lies; no proof outside this module unfolds the bit operations.
-/

namespace MultiPython.Heap

/-- One byte of memory. -/
abbrev Byte := BitVec 8

/-- The machine's memory. It is flat and total: an address outside every object
has some contents too. -/
abbrev Memory := Nat → Byte

/-- The configuration `py/gc.c` is built with. -/
structure Config where
  /-- `BYTES_PER_WORD` is `2 ^ wordShift`. -/
  wordShift : Nat
  /-- `MICROPY_ENABLE_FINALISER`. -/
  enableFinaliser : Bool
  /-- `MICROPY_GC_CONSERVATIVE_CLEAR`. -/
  conservativeClear : Bool
  /-- `MICROPY_ALLOC_GC_STACK_SIZE`, of which `py/mpconfig.h` says "minimum is 1". -/
  allocGcStackSize : Nat
  stackNonempty : 1 ≤ allocGcStackSize

namespace Config

variable (config : Config)

/-- `BYTES_PER_WORD`, also `sizeof(void*)`. -/
def bytesPerWord : Nat := 2 ^ config.wordShift

/-- `MICROPY_BYTES_PER_GC_BLOCK`, by default four words. -/
def bytesPerBlock : Nat := 4 * config.bytesPerWord

def wordsPerBlock : Nat := config.bytesPerBlock / config.bytesPerWord

/-- The number of values of `size_t`. -/
def wordSpace : Nat := 2 ^ (8 * config.bytesPerWord)

theorem bytesPerWord_pos : 0 < config.bytesPerWord := Nat.two_pow_pos _

theorem bytesPerBlock_pos : 0 < config.bytesPerBlock :=
  Nat.mul_pos (by decide) config.bytesPerWord_pos

theorem wordSpace_pos : 0 < config.wordSpace := Nat.two_pow_pos _

theorem bytesPerBlock_eq_two_pow : config.bytesPerBlock = 2 ^ (config.wordShift + 2) := by
  rw [bytesPerBlock, bytesPerWord, pow_add, Nat.mul_comm]
  rfl

@[simp] theorem wordsPerBlock_eq : config.wordsPerBlock = 4 := by
  rw [wordsPerBlock, bytesPerBlock]
  exact Nat.mul_div_cancel _ config.bytesPerWord_pos

theorem bytesPerBlock_dvd_wordSpace : config.bytesPerBlock ∣ config.wordSpace := by
  rw [bytesPerBlock_eq_two_pow, wordSpace]
  apply pow_dvd_pow
  have small : config.wordShift < config.bytesPerWord := Nat.lt_two_pow_self
  have positive := config.bytesPerWord_pos
  omega

end Config

/-- A 32-bit build with finalisers and a mark stack of one entry. -/
def smallConfig : Config := ⟨2, true, true, 1, by decide⟩

def blocksPerAtb : Nat := 4

def blocksPerFtb : Nat := 8

/-- Where `gc_init` has put the tables and the pool. -/
structure Layout where
  allocTableStart : Nat
  allocTableByteLen : Nat
  finaliserTableStart : Nat
  poolStart : Nat
  poolEnd : Nat

/-- The number of allocation table entries, one for each block of the pool. -/
def Layout.blocks (layout : Layout) : Nat := layout.allocTableByteLen * blocksPerAtb

/-- The regions do not overlap and the pool is block aligned. -/
structure Layout.Valid (config : Config) (layout : Layout) : Prop where
  tableBelowPool : layout.allocTableStart + layout.allocTableByteLen ≤ layout.poolStart
  finaliserAfterTable : config.enableFinaliser = true →
    layout.finaliserTableStart = layout.allocTableStart + layout.allocTableByteLen
  finaliserBelowPool : config.enableFinaliser = true →
    layout.finaliserTableStart + (layout.blocks + blocksPerFtb - 1) / blocksPerFtb ≤
      layout.poolStart
  poolLength : layout.poolEnd = layout.poolStart + layout.blocks * config.bytesPerBlock
  poolAligned : config.bytesPerBlock ∣ layout.poolStart
  poolBounded : layout.poolEnd < config.wordSpace

/-- The collector's state and the memory it works on. -/
structure MpStateMem where
  memory : Memory
  layout : Layout
  gcStackOverflow : Bool
  gcLockDepth : UInt16
  gcAutoCollectEnabled : Bool
  gcAllocAmount : Nat
  gcAllocThreshold : Nat
  gcLastFreeAtbIndex : Nat
  /-- The blocks whose `__del__` lookup `gc_sweep` has run, latest first. -/
  finalised : List Nat

/-- The four values of an allocation table entry. -/
inductive AtbKind where
  | free
  | head
  | tail
  | mark
deriving DecidableEq, Repr

/-- Decode the two bits of an entry. -/
def AtbKind.ofBits (bits : Byte) : AtbKind :=
  match bits.toNat with
  | 0 => .free
  | 1 => .head
  | 2 => .tail
  | _ => .mark

variable {bits : Byte}

theorem AtbKind.ofBits_eq_free : AtbKind.ofBits bits = .free ↔ bits = 0#8 := by
  rw [AtbKind.ofBits]
  constructor
  · intro free
    split at free
    · next zero => exact BitVec.eq_of_toNat_eq zero
    all_goals cases free
  · rintro rfl
    rfl

theorem AtbKind.ofBits_eq_tail : AtbKind.ofBits bits = .tail ↔ bits = 2#8 := by
  rw [AtbKind.ofBits]
  constructor
  · intro tail
    split at tail
    case h_3 two => exact BitVec.eq_of_toNat_eq two
    all_goals cases tail
  · rintro rfl
    rfl

/-- `AT_HEAD`, `AT_TAIL` and `AT_MARK` as the masks the macros shift into place. -/
def atHead : Byte := 1#8

@[inherit_doc atHead] def atTail : Byte := 2#8

@[inherit_doc atHead] def atMark : Byte := 3#8

def blockShift (block : Nat) : Nat := 2 * (block &&& (blocksPerAtb - 1))

namespace MpStateMem

variable (state : MpStateMem)

/-- The number of blocks of the heap. -/
def blocks : Nat := state.layout.blocks

/-- Address of the table byte that holds an entry. -/
def atbAddress (block : Nat) : Nat := state.layout.allocTableStart + block / blocksPerAtb

def atbGetKind (block : Nat) : AtbKind :=
  .ofBits ((state.memory (state.atbAddress block) >>> blockShift block) &&& 3#8)

/-- Write one byte of memory. -/
def store (address : Nat) (value : Byte) : MpStateMem :=
  { state with memory := Function.update state.memory address value }

/-- Set the given bits of an entry. -/
def atbSetBits (bits : Byte) (block : Nat) : MpStateMem :=
  state.store (state.atbAddress block)
    (state.memory (state.atbAddress block) ||| (bits <<< blockShift block))

/-- Clear the given bits of an entry. -/
def atbClearBits (bits : Byte) (block : Nat) : MpStateMem :=
  state.store (state.atbAddress block)
    (state.memory (state.atbAddress block) &&& ~~~(bits <<< blockShift block))

def atbAnyToFree (block : Nat) : MpStateMem := state.atbClearBits atMark block

def atbFreeToHead (block : Nat) : MpStateMem := state.atbSetBits atHead block

def atbFreeToTail (block : Nat) : MpStateMem := state.atbSetBits atTail block

def atbHeadToMark (block : Nat) : MpStateMem := state.atbSetBits atMark block

def atbMarkToHead (block : Nat) : MpStateMem := state.atbClearBits atTail block

/-- Address of the finaliser table byte that holds a block's flag. -/
def ftbAddress (block : Nat) : Nat := state.layout.finaliserTableStart + block / blocksPerFtb

def ftbGet (block : Nat) : Bool :=
  (state.memory (state.ftbAddress block) >>> (block &&& 7)) &&& 1#8 != 0#8

def ftbSet (block : Nat) : MpStateMem :=
  state.store (state.ftbAddress block)
    (state.memory (state.ftbAddress block) ||| (1#8 <<< (block &&& 7)))

def ftbClear (block : Nat) : MpStateMem :=
  state.store (state.ftbAddress block)
    (state.memory (state.ftbAddress block) &&& ~~~(1#8 <<< (block &&& 7)))

variable (config : Config)

def ptrFromBlock (block : Nat) : Nat := block * config.bytesPerBlock + state.layout.poolStart

def blockFromPtr (ptr : Nat) : Nat := (ptr - state.layout.poolStart) / config.bytesPerBlock

/-- `VERIFY_PTR`: aligned on a block and inside the pool. -/
def verifyPtr (ptr : Nat) : Bool :=
  ptr &&& (config.bytesPerBlock - 1) == 0 &&
    decide (state.layout.poolStart ≤ ptr) && decide (ptr < state.layout.poolEnd)

/-- Read the little-endian word at an address. -/
def loadWord (address : Nat) : Nat :=
  (List.range config.bytesPerWord).foldr
    (fun offset high => (state.memory (address + offset)).toNat + 256 * high) 0

end MpStateMem

/-! ## What the macros do to the table -/

/-- The kind held in one of the four slots of a table byte. -/
private def slotKind (byte : Byte) (slot : Nat) : AtbKind :=
  .ofBits ((byte >>> (2 * slot)) &&& 3#8)

private theorem blockShift_eq (block : Nat) : blockShift block = 2 * (block % blocksPerAtb) := by
  rw [blockShift, blocksPerAtb, Nat.and_two_pow_sub_one_eq_mod block 2]

private theorem slot_lt (block : Nat) : block % blocksPerAtb < 4 := Nat.mod_lt _ (by decide)

private theorem slotKind_or (byte bits : Byte) (slot : Nat) :
    slotKind (byte ||| bits) slot =
      .ofBits (((byte >>> (2 * slot)) &&& 3#8) ||| ((bits >>> (2 * slot)) &&& 3#8)) := by
  rw [slotKind, BitVec.ushiftRight_or_distrib, BitVec.and_or_distrib_right]

private theorem slotKind_and (byte bits : Byte) (slot : Nat) :
    slotKind (byte &&& bits) slot =
      .ofBits (((byte >>> (2 * slot)) &&& 3#8) &&& ((bits >>> (2 * slot)) &&& 3#8)) := by
  rw [slotKind, BitVec.ushiftRight_and_distrib, BitVec.and_assoc, BitVec.and_assoc,
    BitVec.and_comm 3#8 (_ &&& 3#8), BitVec.and_assoc, BitVec.and_self]

private theorem slotKind_or_zero {slot : Nat} (apart : (bits >>> (2 * slot)) &&& 3#8 = 0#8)
    (byte : Byte) : slotKind (byte ||| bits) slot = slotKind byte slot := by
  rw [slotKind_or, apart, BitVec.or_zero, slotKind]

private theorem slotKind_and_ones {slot : Nat} (apart : (bits >>> (2 * slot)) &&& 3#8 = 3#8)
    (byte : Byte) : slotKind (byte &&& bits) slot = slotKind byte slot := by
  rw [slotKind_and, apart, BitVec.and_assoc, BitVec.and_self, slotKind]

private theorem shifted_other : ∀ slot other : Fin 4, slot ≠ other →
    ((atHead <<< (2 * slot.val)) >>> (2 * other.val)) &&& 3#8 = 0#8 ∧
    ((atTail <<< (2 * slot.val)) >>> (2 * other.val)) &&& 3#8 = 0#8 ∧
    ((atMark <<< (2 * slot.val)) >>> (2 * other.val)) &&& 3#8 = 0#8 ∧
    (~~~(atTail <<< (2 * slot.val)) >>> (2 * other.val)) &&& 3#8 = 3#8 ∧
    (~~~(atMark <<< (2 * slot.val)) >>> (2 * other.val)) &&& 3#8 = 3#8 := by
  decide

private theorem shifted_self : ∀ slot : Fin 4,
    ((atHead <<< (2 * slot.val)) >>> (2 * slot.val)) &&& 3#8 = atHead ∧
    ((atTail <<< (2 * slot.val)) >>> (2 * slot.val)) &&& 3#8 = atTail ∧
    ((atMark <<< (2 * slot.val)) >>> (2 * slot.val)) &&& 3#8 = atMark ∧
    (~~~(atTail <<< (2 * slot.val)) >>> (2 * slot.val)) &&& 3#8 = 1#8 ∧
    (~~~(atMark <<< (2 * slot.val)) >>> (2 * slot.val)) &&& 3#8 = 0#8 := by
  decide

private theorem slotBits (bits : Byte) (inSlot : bits.toNat < 4) :
    (AtbKind.ofBits bits = .free → AtbKind.ofBits (bits ||| atHead) = .head) ∧
    (AtbKind.ofBits bits = .free → AtbKind.ofBits (bits ||| atTail) = .tail) ∧
    AtbKind.ofBits (bits ||| atMark) = .mark ∧
    (AtbKind.ofBits bits = .mark → AtbKind.ofBits (bits &&& 1#8) = .head) := by
  obtain ⟨value, rfl⟩ : ∃ value : Fin 4, bits = BitVec.ofNat 8 value :=
    ⟨⟨bits.toNat, inSlot⟩, by simp⟩
  revert value
  decide

private theorem slotKind_set_other (byte : Byte) (slot other : Fin 4) (different : slot ≠ other) :
    slotKind (byte ||| (atHead <<< (2 * slot.val))) other = slotKind byte other ∧
    slotKind (byte ||| (atTail <<< (2 * slot.val))) other = slotKind byte other ∧
    slotKind (byte ||| (atMark <<< (2 * slot.val))) other = slotKind byte other := by
  obtain ⟨head, tail, mark, -⟩ := shifted_other slot other different
  exact ⟨slotKind_or_zero head byte, slotKind_or_zero tail byte, slotKind_or_zero mark byte⟩

private theorem slotKind_clear_other (byte : Byte) (slot other : Fin 4) (different : slot ≠ other) :
    slotKind (byte &&& ~~~(atTail <<< (2 * slot.val))) other = slotKind byte other ∧
    slotKind (byte &&& ~~~(atMark <<< (2 * slot.val))) other = slotKind byte other := by
  obtain ⟨-, -, -, tail, mark⟩ := shifted_other slot other different
  exact ⟨slotKind_and_ones tail byte, slotKind_and_ones mark byte⟩

private theorem slotBits_lt (byte : Byte) (slot : Nat) :
    ((byte >>> (2 * slot)) &&& 3#8).toNat < 4 := by
  rw [BitVec.toNat_and]
  exact Nat.and_lt_two_pow _ (by decide : (3#8).toNat < 2 ^ 2)

private theorem slotKind_set_self (byte : Byte) (slot : Fin 4) :
    (slotKind byte slot = .free → slotKind (byte ||| (atHead <<< (2 * slot.val))) slot = .head) ∧
    (slotKind byte slot = .free → slotKind (byte ||| (atTail <<< (2 * slot.val))) slot = .tail) ∧
    slotKind (byte ||| (atMark <<< (2 * slot.val))) slot = .mark := by
  obtain ⟨head, tail, mark, -⟩ := shifted_self slot
  obtain ⟨setHead, setTail, setMark, -⟩ := slotBits _ (slotBits_lt byte slot)
  simp only [slotKind_or, head, tail, mark]
  exact ⟨setHead, setTail, setMark⟩

private theorem slotKind_clear_self (byte : Byte) (slot : Fin 4) :
    (slotKind byte slot = .mark →
      slotKind (byte &&& ~~~(atTail <<< (2 * slot.val))) slot = .head) ∧
    slotKind (byte &&& ~~~(atMark <<< (2 * slot.val))) slot = .free := by
  obtain ⟨-, -, -, tail, mark⟩ := shifted_self slot
  obtain ⟨-, -, -, clearTail⟩ := slotBits _ (slotBits_lt byte slot)
  simp only [slotKind_and, tail, mark]
  refine ⟨clearTail, ?_⟩
  rw [BitVec.and_zero]
  rfl

namespace MpStateMem

variable (state : MpStateMem)

private theorem atbGetKind_eq (block : Nat) :
    state.atbGetKind block =
      slotKind (state.memory (state.atbAddress block)) (block % blocksPerAtb) := by
  rw [atbGetKind, blockShift_eq, slotKind]

@[simp] theorem store_memory_self (address : Nat) (value : Byte) :
    (state.store address value).memory address = value := Function.update_self _ _ _

theorem store_memory_other {address other : Nat} (value : Byte) (different : other ≠ address) :
    (state.store address value).memory other = state.memory other :=
  Function.update_of_ne different _ _

variable {block : Nat}

theorem kind_congr {first second : MpStateMem}
    (byte : first.memory (first.atbAddress block) = second.memory (second.atbAddress block)) :
    first.atbGetKind block = second.atbGetKind block := by
  rw [atbGetKind_eq, atbGetKind_eq, byte]

theorem kind_of_zero (zero : state.memory (state.atbAddress block) = 0#8) :
    state.atbGetKind block = .free := by
  rw [atbGetKind, zero, BitVec.zero_ushiftRight, BitVec.zero_and]
  rfl

theorem atbAddress_lt (inside : block < state.blocks) :
    state.atbAddress block < state.layout.allocTableStart + state.layout.allocTableByteLen := by
  have bound : block < state.layout.allocTableByteLen * 4 := inside
  simp only [atbAddress, blocksPerAtb]
  omega

theorem kind_store_outside {address block : Nat} (value : Byte)
    (outside : address ≠ state.atbAddress block) :
    (state.store address value).atbGetKind block = state.atbGetKind block :=
  kind_congr (state.store_memory_other value outside.symm)

/-- A change of one byte that gives one slot a new kind and keeps the other three
changes exactly that entry of the whole table. -/
private theorem kind_change (change : Byte → Byte) {kind : AtbKind}
    (self : slotKind (change (state.memory (state.atbAddress block))) (block % blocksPerAtb) = kind)
    (frame : ∀ byte (slot : Fin 4), (⟨block % blocksPerAtb, slot_lt block⟩ : Fin 4) ≠ slot →
      slotKind (change byte) slot = slotKind byte slot) (other : Nat) :
    (state.store (state.atbAddress block)
      (change (state.memory (state.atbAddress block)))).atbGetKind other =
      if other = block then kind else state.atbGetKind other := by
  split
  · next same =>
    subst same
    rw [atbGetKind_eq]
    change slotKind ((state.store (state.atbAddress other) _).memory (state.atbAddress other)) _ = _
    rw [store_memory_self, self]
  · next different =>
    by_cases sameByte : state.atbAddress block = state.atbAddress other
    · have slots : block % blocksPerAtb ≠ other % blocksPerAtb := by
        intro sameSlot
        apply different
        have quotients : block / blocksPerAtb = other / blocksPerAtb := by
          simpa [atbAddress] using sameByte
        rw [← Nat.div_add_mod other blocksPerAtb, ← Nat.div_add_mod block blocksPerAtb, quotients,
          sameSlot]
      have kept := frame (state.memory (state.atbAddress block))
        ⟨other % blocksPerAtb, slot_lt other⟩ (by simpa using slots)
      rw [atbGetKind_eq, atbGetKind_eq, ← sameByte]
      change slotKind ((state.store (state.atbAddress block) _).memory
        (state.atbAddress other)) _ = _
      rw [← sameByte, store_memory_self]
      exact kept
    · exact state.kind_store_outside _ sameByte

theorem kind_anyToFree (block other : Nat) :
    (state.atbAnyToFree block).atbGetKind other =
      if other = block then .free else state.atbGetKind other := by
  rw [atbAnyToFree, atbClearBits, blockShift_eq]
  exact state.kind_change
    (fun byte => byte &&& ~~~(atMark <<< (2 * (block % blocksPerAtb))))
    (slotKind_clear_self _ ⟨_, slot_lt block⟩).2
    (fun byte slot apart => (slotKind_clear_other byte _ slot apart).2) other

theorem kind_markToHead (marked : state.atbGetKind block = .mark) (other : Nat) :
    (state.atbMarkToHead block).atbGetKind other =
      if other = block then .head else state.atbGetKind other := by
  rw [atbGetKind_eq] at marked
  rw [atbMarkToHead, atbClearBits, blockShift_eq]
  exact state.kind_change
    (fun byte => byte &&& ~~~(atTail <<< (2 * (block % blocksPerAtb))))
    ((slotKind_clear_self _ ⟨_, slot_lt block⟩).1 marked)
    (fun byte slot apart => (slotKind_clear_other byte _ slot apart).1) other

theorem kind_freeToHead (isFree : state.atbGetKind block = .free) (other : Nat) :
    (state.atbFreeToHead block).atbGetKind other =
      if other = block then .head else state.atbGetKind other := by
  rw [atbGetKind_eq] at isFree
  rw [atbFreeToHead, atbSetBits, blockShift_eq]
  exact state.kind_change
    (fun byte => byte ||| (atHead <<< (2 * (block % blocksPerAtb))))
    ((slotKind_set_self _ ⟨_, slot_lt block⟩).1 isFree)
    (fun byte slot apart => (slotKind_set_other byte _ slot apart).1) other

theorem kind_freeToTail (isFree : state.atbGetKind block = .free) (other : Nat) :
    (state.atbFreeToTail block).atbGetKind other =
      if other = block then .tail else state.atbGetKind other := by
  rw [atbGetKind_eq] at isFree
  rw [atbFreeToTail, atbSetBits, blockShift_eq]
  exact state.kind_change
    (fun byte => byte ||| (atTail <<< (2 * (block % blocksPerAtb))))
    ((slotKind_set_self _ ⟨_, slot_lt block⟩).2.1 isFree)
    (fun byte slot apart => (slotKind_set_other byte _ slot apart).2.1) other

theorem kind_headToMark (block other : Nat) :
    (state.atbHeadToMark block).atbGetKind other =
      if other = block then .mark else state.atbGetKind other := by
  rw [atbHeadToMark, atbSetBits, blockShift_eq]
  exact state.kind_change
    (fun byte => byte ||| (atMark <<< (2 * (block % blocksPerAtb))))
    (slotKind_set_self _ ⟨_, slot_lt block⟩).2.2
    (fun byte slot apart => (slotKind_set_other byte _ slot apart).2.2) other

end MpStateMem

end MultiPython.Heap
