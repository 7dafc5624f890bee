import MultiPython.Heap.Alloc

/-!
# What the allocator does to the table

One specification for each part of the allocator, in terms of the entries of the
table: which run the search finds, and which entries taking, freeing, shrinking
and expanding a chunk change. `Chunk` is a chunk with its length, and
`Chunk.keep` says when it is still a chunk afterwards.
-/

namespace MultiPython.Heap

open Logic List

variable {config : Config}

/-- `length` blocks from `block` on are one chunk. -/
structure Chunk (state : MpStateMem) (block length : Nat) : Prop where
  positive : 0 < length
  inside : block + length ≤ state.blocks
  head : state.atbGetKind block = .head
  tails : ∀ entry, block < entry → entry < block + length → state.atbGetKind entry = .tail
  ended : block + length < state.blocks → state.atbGetKind (block + length) ≠ .tail

/-- A run of `length` consecutive free blocks somewhere in the pool. -/
def HasFreeRun (state : MpStateMem) (length : Nat) : Prop :=
  0 < length ∧ ∃ first, first + length ≤ state.blocks ∧
    ∀ block, first ≤ block → block < first + length → state.atbGetKind block = .free

/-- The table, the layout and what the allocator remembers are the same. -/
structure SameTable (before after : MpStateMem) : Prop where
  layout : after.layout = before.layout
  gcLockDepth : after.gcLockDepth = before.gcLockDepth
  gcLastFreeAtbIndex : after.gcLastFreeAtbIndex = before.gcLastFreeAtbIndex
  table : ∀ address, before.layout.allocTableStart ≤ address →
    address < before.layout.allocTableStart + before.layout.allocTableByteLen →
      after.memory address = before.memory address

variable {entry : Nat}

namespace SameTable

variable {before middle after : MpStateMem}

theorem refl (state : MpStateMem) : SameTable state state := ⟨rfl, rfl, rfl, fun _ _ _ => rfl⟩

theorem trans (first : SameTable before middle) (second : SameTable middle after) :
    SameTable before after where
  layout := second.layout.trans first.layout
  gcLockDepth := second.gcLockDepth.trans first.gcLockDepth
  gcLastFreeAtbIndex := second.gcLastFreeAtbIndex.trans first.gcLastFreeAtbIndex
  table := fun address low high => by
    rw [second.table address (by rw [first.layout]; exact low) (by rw [first.layout]; exact high),
      first.table address low high]

theorem blocks (same : SameTable before after) : after.blocks = before.blocks :=
  congrArg Layout.blocks same.layout

theorem kind (same : SameTable before after) (inside : entry < before.blocks) :
    after.atbGetKind entry = before.atbGetKind entry := by
  apply MpStateMem.kind_congr
  have address : after.atbAddress entry = before.atbAddress entry := by
    rw [MpStateMem.atbAddress, MpStateMem.atbAddress, same.layout]
  rw [address]
  exact same.table _ (Nat.le_add_right _ _) (before.atbAddress_lt inside)

variable {state : MpStateMem}

theorem ofMemory (valid : state.layout.Valid config) {memory : Memory}
    (kept : ∀ address, address < state.layout.poolStart → memory address = state.memory address) :
    SameTable state { state with memory := memory } :=
  ⟨rfl, rfl, rfl, fun address _ inTable =>
    kept address (Nat.lt_of_lt_of_le inTable valid.tableBelowPool)⟩

theorem ftb (valid : state.layout.Valid config) (enabled : config.enableFinaliser = true)
    (block : Nat) :
    SameTable state (state.ftbSet block) ∧ SameTable state (state.ftbClear block) := by
  have apart : ∀ address, address < state.layout.allocTableStart + state.layout.allocTableByteLen →
      address ≠ state.ftbAddress block := by
    intro address inTable
    have after := valid.finaliserAfterTable enabled
    simp only [MpStateMem.ftbAddress, blocksPerFtb]
    omega
  exact ⟨⟨rfl, rfl, rfl, fun address _ inTable => state.store_memory_other _ (apart address inTable)⟩,
    ⟨rfl, rfl, rfl, fun address _ inTable => state.store_memory_other _ (apart address inTable)⟩⟩

end SameTable

/-- The heap is `before` with other entries in its table, another hint, and any bytes
behind the table. -/
structure Retabled (before : MpStateMem) (hint : Nat) (kinds : Nat → AtbKind)
    (after : MpStateMem) : Prop where
  layout : after.layout = before.layout
  gcLockDepth : after.gcLockDepth = before.gcLockDepth
  gcLastFreeAtbIndex : after.gcLastFreeAtbIndex = hint
  kinds : ∀ entry < before.blocks, after.atbGetKind entry = kinds entry

namespace Retabled

variable {before middle after : MpStateMem} {hint : Nat} {kinds : Nat → AtbKind}

theorem blocks (retabled : Retabled before hint kinds after) : after.blocks = before.blocks :=
  congrArg Layout.blocks retabled.layout

theorem andThen (first : Retabled before hint kinds middle) (second : SameTable middle after) :
    Retabled before hint kinds after where
  layout := second.layout.trans first.layout
  gcLockDepth := second.gcLockDepth.trans first.gcLockDepth
  gcLastFreeAtbIndex := second.gcLastFreeAtbIndex.trans first.gcLastFreeAtbIndex
  kinds := fun entry inside =>
    (second.kind (by rw [first.blocks]; exact inside)).trans (first.kinds entry inside)

end Retabled

namespace Chunk

variable {state after : MpStateMem} {block length : Nat}

theorem used (chunk : Chunk state block length) (low : block ≤ entry)
    (high : entry < block + length) : state.atbGetKind entry ≠ .free := by
  by_cases first : entry = block
  · simp [first, chunk.head]
  · simp [chunk.tails entry (by omega) high]

theorem inChunk_iff (chunk : Chunk state block length) :
    InChunk state block entry ↔ block ≤ entry ∧ entry < block + length := by
  have inside := chunk.inside
  constructor
  · rintro ⟨above, within, tails⟩
    refine ⟨above, ?_⟩
    by_contra beyond
    have positive := chunk.positive
    exact chunk.ended (by omega) (tails (block + length) (by omega) (by omega))
  · rintro ⟨above, below⟩
    exact ⟨above, by omega, fun other low high => chunk.tails other low (by omega)⟩

theorem disjoint {other size : Nat} (first : Chunk state block length)
    (second : Chunk state other size) (different : block ≠ other) :
    block + length ≤ other ∨ other + size ≤ block := by
  by_contra overlap
  have firstHead := first.head
  have secondHead := second.head
  by_cases order : block < other
  · have := first.tails other order (by omega)
    simp [secondHead] at this
  · have := second.tails block (by omega) (by omega)
    simp [firstHead] at this

theorem keep (chunk : Chunk state block length) (sameBlocks : after.blocks = state.blocks)
    (same : ∀ entry, block ≤ entry → entry < block + length →
      after.atbGetKind entry = state.atbGetKind entry)
    (ended : block + length < state.blocks → after.atbGetKind (block + length) ≠ .tail) :
    Chunk after block length where
  positive := chunk.positive
  inside := sameBlocks ▸ chunk.inside
  head := (same block le_rfl (Nat.lt_add_of_pos_right chunk.positive)).trans chunk.head
  tails := fun entry low high =>
    (same entry (Nat.le_of_lt low) high).trans (chunk.tails entry low high)
  ended := fun within => ended (sameBlocks ▸ within)

end Chunk

variable {before after : MpStateMem} {block length : Nat}

theorem SameTable.chunk (same : SameTable before after) (chunk : Chunk before block length) :
    Chunk after block length := by
  have inside := chunk.inside
  refine chunk.keep same.blocks (fun entry _ high => same.kind (by omega)) fun more => ?_
  rw [same.kind more]
  exact chunk.ended more

variable {state : MpStateMem}

theorem exists_chunk {block : Nat} (inside : block < state.blocks)
    (isHead : state.atbGetKind block = .head) : ∃ length, Chunk state block length := by
  -- The walk that stops at the end of the table measures it.
  have covers := lt_length_tailWalk state (state.blocks - block) (block + 1)
  generalize (state.tailWalk (state.blocks - block) (block + 1)).length = length at covers
  have positive : 0 < length := (covers 0).mpr ⟨by omega, fun other below => absurd below (by omega)⟩
  have within : block + length ≤ state.blocks := by
    by_contra beyond
    exact absurd ((covers (state.blocks - block)).mp (by omega)).1 (by omega)
  have tails : ∀ entry, block < entry → entry < block + length → state.atbGetKind entry = .tail := by
    intro entry low high
    have tail := ((covers (entry - block)).mp (by omega)).2 (entry - block - 1) (by omega)
    rwa [show block + 1 + (entry - block - 1) = entry by omega] at tail
  refine ⟨length, positive, within, isHead, tails, fun more isTail => ?_⟩
  have longer := (covers length).mpr ⟨by omega, fun other below => ?_⟩
  · omega
  · by_cases isLast : block + 1 + other = block + length
    · exact isLast ▸ isTail
    · exact tails _ (by omega) (by omega)

/-! ## Changing a range of entries -/

theorem foldl_kind {change : MpStateMem → Nat → MpStateMem} (ready : AtbKind → Prop)
    {kind : AtbKind} (step : ∀ state block, ready (state.atbGetKind block) → ∀ other,
      (change state block).atbGetKind other = if other = block then kind else state.atbGetKind other)
    (count : Nat) {first : Nat}
    (all : ∀ block, first ≤ block → block < first + count → ready (state.atbGetKind block))
    (other : Nat) :
    ((List.range' first count).foldl change state).atbGetKind other =
      if first ≤ other ∧ other < first + count then kind else state.atbGetKind other := by
  induction count generalizing state first with
  | zero => simp
  | succ count ih =>
    have here := step state first (all first le_rfl (by omega))
    rw [range'_succ, foldl_cons, ih]
    · rw [here]
      by_cases isFirst : other = first
      · simp [isFirst]
      · have : (first + 1 ≤ other ∧ other < first + 1 + count) ↔
            first ≤ other ∧ other < first + (count + 1) := by omega
        simp only [isFirst, if_false]
        exact if_congr this rfl rfl
    · intro block low high
      rw [here, if_neg (by omega)]
      exact all block (by omega) (by omega)

theorem foldl_frame (change : MpStateMem → Nat → MpStateMem)
    (step : ∀ state block, { change state block with memory := state.memory } = state)
    (blocks : List Nat) (state : MpStateMem) :
    { blocks.foldl change state with memory := state.memory } = state := by
  induction blocks generalizing state with
  | nil => rfl
  | cons block rest ih =>
    have later := ih (change state block)
    have here := step state block
    rw [foldl_cons]
    rw [← later] at here
    exact here

theorem Retabled.ofFrame (kinds : Nat → AtbKind)
    (frame : { after with memory := before.memory } = before)
    (entries : ∀ entry < before.blocks, after.atbGetKind entry = kinds entry) :
    Retabled before before.gcLastFreeAtbIndex kinds after where
  layout := by
    have fields := congrArg MpStateMem.layout frame
    exact fields
  gcLockDepth := by
    have fields := congrArg MpStateMem.gcLockDepth frame
    exact fields
  gcLastFreeAtbIndex := by
    have fields := congrArg MpStateMem.gcLastFreeAtbIndex frame
    exact fields
  kinds := entries

theorem Retabled.hinted {hint : Nat} {kinds : Nat → AtbKind}
    (retabled : Retabled before hint kinds after) (moved : Nat) :
    Retabled before moved kinds { after with gcLastFreeAtbIndex := moved } :=
  ⟨retabled.layout, retabled.gcLockDepth, rfl, retabled.kinds⟩

/-! ## The search -/

/-- Whether an entry is free, as a test. -/
def isFree (state : MpStateMem) (block : Nat) : Bool := decide (state.atbGetKind block = .free)

theorem slotBits_shifted (byte : Byte) (slot : Fin 4) :
    byte &&& atbMask slot = ((byte >>> (2 * slot.val)) &&& 3#8) <<< (2 * slot.val) := by
  have mask : atbMask slot = 3#8 <<< (2 * slot.val) := by
    revert slot
    decide
  have low : BitVec.allOnes 8 <<< (2 * slot.val) &&& atbMask slot = atbMask slot := by
    revert slot
    decide
  rw [BitVec.shiftLeft_and_distrib, BitVec.shiftLeft_ushiftRight, ← mask, BitVec.and_assoc, low]

private theorem atbIsFree_iff (byte : Byte) (slot : Fin 4) :
    atbIsFree slot byte = decide (AtbKind.ofBits ((byte >>> (2 * slot.val)) &&& 3#8) = .free) := by
  have mask : ∀ slot : Fin 4, atbMask slot >>> (2 * slot.val) = 3#8 := by decide
  rw [atbIsFree, Bool.eq_iff_iff, beq_iff_eq, decide_eq_true_eq, AtbKind.ofBits_eq_free]
  constructor
  · intro free
    rw [← mask slot, ← BitVec.ushiftRight_and_distrib, free, BitVec.zero_ushiftRight]
  · intro free
    rw [slotBits_shifted, free, BitVec.zero_shiftLeft]

theorem atbIsFree_eq (state : MpStateMem) (index : Nat) (slot : Fin 4) :
    atbIsFree slot (state.memory (state.layout.allocTableStart + index)) =
      isFree state (index * blocksPerAtb + slot) := by
  have shift : blockShift (index * blocksPerAtb + slot) = 2 * slot.val := by
    rw [blockShift, blocksPerAtb, Nat.and_two_pow_sub_one_eq_mod _ 2]
    omega
  have byte : (index * blocksPerAtb + slot.val) / blocksPerAtb = index := by
    rw [blocksPerAtb]
    omega
  rw [isFree, MpStateMem.atbGetKind, MpStateMem.atbAddress, shift, byte]
  exact atbIsFree_iff _ slot

theorem gcSearchByte_eq (state : MpStateMem) (nBlocks nFree index : Nat) :
    gcSearchByte state nBlocks nFree index =
      FirstFit.seek (isFree state) nBlocks 4 (index * blocksPerAtb) nFree := by
  have slot : ∀ (offset : Fin 4) (run : Nat),
      gcSearchSlot state nBlocks index run offset =
        FirstFit.seek (isFree state) nBlocks 1 (index * blocksPerAtb + offset) run := by
    intro offset run
    rw [gcSearchSlot, atbIsFree_eq]
    rfl
  rw [gcSearchByte, foldlM_cons, FirstFit.seek_append (isFree state) nBlocks 1 3]
  rw [show gcSearchSlot state nBlocks index nFree 0 = _ from slot 0 nFree]
  refine bind_congr fun first => ?_
  rw [foldlM_cons, FirstFit.seek_append (isFree state) nBlocks 1 2]
  rw [show gcSearchSlot state nBlocks index first 1 = _ from slot 1 first]
  refine bind_congr fun second => ?_
  rw [foldlM_cons, FirstFit.seek_append (isFree state) nBlocks 1 1]
  rw [show gcSearchSlot state nBlocks index second 2 = _ from slot 2 second]
  refine bind_congr fun third => ?_
  simp only [foldlM_cons, foldlM_nil, bind_pure]
  exact slot 3 third

theorem gcSearch_eq (state : MpStateMem) (nBlocks : Nat) :
    gcSearch state nBlocks =
      FirstFit.seek (isFree state) nBlocks
        (state.blocks - state.gcLastFreeAtbIndex * blocksPerAtb)
        (state.gcLastFreeAtbIndex * blocksPerAtb) 0 := by
  have bytes : ∀ count index run, (range' index count).foldlM (gcSearchByte state nBlocks) run =
      FirstFit.seek (isFree state) nBlocks (count * 4) (index * blocksPerAtb) run := by
    intro count
    induction count with
    | zero => intro index run; rfl
    | succ count ih =>
      intro index run
      rw [range'_succ, foldlM_cons, gcSearchByte_eq,
        show (count + 1) * 4 = 4 + count * 4 by omega, FirstFit.seek_append]
      refine bind_congr fun next => ?_
      rw [ih, show (index + 1) * blocksPerAtb = index * blocksPerAtb + 4 by
        rw [blocksPerAtb]; omega]
  rw [gcSearch, bytes, MpStateMem.blocks, Layout.blocks, ← Nat.sub_mul]
  rfl

/-- No free block lies before the byte that the search starts at. -/
def HintSound (state : MpStateMem) : Prop :=
  ∀ block < state.blocks, state.atbGetKind block = .free →
    state.gcLastFreeAtbIndex * blocksPerAtb ≤ block

section Search

variable {state : MpStateMem} {nBlocks : Nat} (positive : 0 < nBlocks)

include positive

theorem gcSearch_found {endBlock nFree : Nat}
    (found : gcSearch state nBlocks = .error (endBlock, nFree)) :
    nFree = nBlocks ∧ nBlocks ≤ endBlock + 1 ∧ endBlock < state.blocks ∧
      (∀ block, endBlock + 1 - nBlocks ≤ block → block ≤ endBlock →
        state.atbGetKind block = .free) ∧
      (nBlocks = 1 → ∀ block < endBlock, state.gcLastFreeAtbIndex * blocksPerAtb ≤ block →
        state.atbGetKind block ≠ .free) := by
  rw [gcSearch_eq] at found
  obtain ⟨same, low, high, run, first⟩ := (FirstFit.seek_spec _
    (FirstFit.Searched.start (isFree state) positive _)).1 _ _ found
  refine ⟨same, by omega, by omega, fun block above below => ?_, fun single block below above => ?_⟩
  · simpa [isFree] using run.cells block above (by omega)
  · subst single
    intro free
    refine first block above (by omega) ⟨positive, fun cell lower upper => ?_⟩
    obtain rfl : cell = block := by omega
    simpa [isFree] using free

theorem gcSearch_none (hint : HintSound state) {nFree : Nat}
    (failed : gcSearch state nBlocks = .ok nFree) : ¬ HasFreeRun state nBlocks := by
  rintro ⟨_, first, within, free⟩
  rw [gcSearch_eq] at failed
  have above := hint first (by omega) (free first le_rfl (by omega))
  refine (FirstFit.seek_spec _ (FirstFit.Searched.start (isFree state) positive _)).2 _ failed first
    above (by omega) ⟨positive, fun cell lower upper => ?_⟩
  simpa [isFree] using free cell lower upper

end Search

/-! ## Taking and freeing blocks -/

/-- The entries after taking the blocks from `first` to `last` as one chunk. -/
def takenKind (kind : Nat → AtbKind) (first last entry : Nat) : AtbKind :=
  if entry = first then .head else if first < entry ∧ entry ≤ last then .tail else kind entry

variable {nBlocks endBlock : Nat}

/-- Taking a run makes its first block a head and the others tails. -/
theorem gcAllocMark_retabled (positive : 0 < nBlocks) (fits : nBlocks ≤ endBlock + 1)
    (free : ∀ block, endBlock + 1 - nBlocks ≤ block → block ≤ endBlock →
      state.atbGetKind block = .free) :
    Retabled state
      (if nBlocks = 1 then (endBlock + 1) / blocksPerAtb else state.gcLastFreeAtbIndex)
      (takenKind state.atbGetKind (endBlock + 1 - nBlocks) endBlock)
      (gcAllocMark state endBlock nBlocks) := by
  unfold gcAllocMark
  generalize startEq : endBlock + 1 - nBlocks = startBlock at free ⊢
  -- The hint plays no part in the entries, so the fold can start from any hint.
  have marked : ∀ hinted : MpStateMem, (∀ entry, hinted.atbGetKind entry = state.atbGetKind entry) →
      Retabled hinted hinted.gcLastFreeAtbIndex (takenKind state.atbGetKind startBlock endBlock)
        ((range' (startBlock + 1) (endBlock - startBlock)).foldl MpStateMem.atbFreeToTail
          (hinted.atbFreeToHead startBlock)) := by
    intro hinted same
    have headed := hinted.kind_freeToHead
      ((same startBlock).trans (free startBlock le_rfl (by omega)))
    have frame := foldl_frame MpStateMem.atbFreeToTail (fun state block => rfl)
      (range' (startBlock + 1) (endBlock - startBlock)) (hinted.atbFreeToHead startBlock)
    refine Retabled.ofFrame _
      (congrArg (fun state : MpStateMem => { state with memory := hinted.memory }) frame)
      fun entry _ => ?_
    rw [foldl_kind (· = .free) fun state block isFree => state.kind_freeToTail isFree]
    · rw [headed, same, takenKind]
      by_cases isStart : entry = startBlock
      · simp [isStart]
      · simp only [isStart, if_false]
        exact if_congr (by omega) rfl rfl
    · intro block low high
      rw [headed, if_neg (by omega), same]
      exact free block (by omega) (by omega)
  by_cases single : nBlocks = 1
  · simp only [single, if_true]
    have moved := marked { state with gcLastFreeAtbIndex := (endBlock + 1) / blocksPerAtb }
      fun _ => rfl
    exact ⟨moved.layout, moved.gcLockDepth, moved.gcLastFreeAtbIndex, moved.kinds⟩
  · simp only [single, if_false]
    exact marked state fun _ => rfl

theorem gcAllocClear_sameTable (valid : state.layout.Valid config) (nBytes : Nat)
    (hasFinaliser : Bool) (startBlock endBlock : Nat) :
    SameTable state (gcAllocClear config nBytes hasFinaliser state startBlock endBlock) := by
  have cleared : ∀ start count, state.layout.poolStart ≤ start → ∀ other : MpStateMem,
      SameTable state other →
        SameTable state { other with memory := memset other.memory start 0 count } := by
    intro start count above other same
    refine same.trans (SameTable.ofMemory (same.layout ▸ valid) fun address below => ?_)
    rw [same.layout] at below
    exact memset_outside _ (.inl (by omega))
  have first : SameTable state { state with
      memory :=
        if config.conservativeClear then
          memset state.memory (state.layout.poolStart + startBlock * config.bytesPerBlock) 0
            ((endBlock - startBlock + 1) * config.bytesPerBlock)
        else
          memset state.memory (state.layout.poolStart + startBlock * config.bytesPerBlock + nBytes) 0
            ((endBlock - startBlock + 1) * config.bytesPerBlock - nBytes) } := by
    split
    · exact cleared _ _ (Nat.le_add_right _ _) state (SameTable.refl state)
    · exact cleared _ _ (by omega) state (SameTable.refl state)
  unfold gcAllocClear
  by_cases flagged : (config.enableFinaliser && hasFinaliser) = true
  · simp only [flagged, if_true]
    have untyped := cleared _ config.bytesPerWord
      (Nat.le_add_right state.layout.poolStart (startBlock * config.bytesPerBlock)) _ first
    exact untyped.trans
      (SameTable.ftb (untyped.layout ▸ valid) (Bool.and_eq_true_iff.mp flagged).1 startBlock).1
  · simp only [flagged]
    exact first

theorem gcAllocTake_retabled (valid : state.layout.Valid config) (nBytes : Nat)
    (hasFinaliser : Bool) (positive : 0 < nBlocks) (fits : nBlocks ≤ endBlock + 1)
    (free : ∀ block, endBlock + 1 - nBlocks ≤ block → block ≤ endBlock →
      state.atbGetKind block = .free) :
    Retabled state
        (if nBlocks = 1 then (endBlock + 1) / blocksPerAtb else state.gcLastFreeAtbIndex)
        (takenKind state.atbGetKind (endBlock + 1 - nBlocks) endBlock)
        (gcAllocTake config nBytes nBlocks hasFinaliser state endBlock nBlocks).1 ∧
      (gcAllocTake config nBytes nBlocks hasFinaliser state endBlock nBlocks).2 =
        state.ptrFromBlock config (endBlock + 1 - nBlocks) := by
  have marked := gcAllocMark_retabled positive fits free
  unfold gcAllocTake
  generalize gcAllocMark state endBlock nBlocks = mark at marked
  refine ⟨(Retabled.andThen ?_ (gcAllocClear_sameTable ?_ nBytes hasFinaliser _ endBlock)), ?_⟩
  · exact ⟨marked.layout, marked.gcLockDepth, marked.gcLastFreeAtbIndex, marked.kinds⟩
  · exact marked.layout ▸ valid
  · simp only [MpStateMem.ptrFromBlock, marked.layout, Nat.add_comm]

theorem tailsUpTo_anyToFree {block entry : Nat} (isTail : state.atbGetKind (block + 1) = .tail) :
    TailsUpTo (state.atbAnyToFree block) (block + 1) entry ↔ TailsUpTo state block entry := by
  have freed := state.kind_anyToFree block
  constructor
  · intro later other low high
    by_cases first : other = block + 1
    · exact first ▸ isTail
    · have tail := later other (by omega) high
      rwa [freed, if_neg (by omega)] at tail
  · intro all other low high
    rw [freed, if_neg (by omega)]
    exact all other (by omega) high

theorem tailsUpTo_single {block entry fuel : Nat} (notTail : state.atbGetKind (block + 1) ≠ .tail) :
    (block ≤ entry ∧ entry < block + (fuel + 1) ∧ TailsUpTo state block entry) ↔ entry = block := by
  constructor
  · rintro ⟨above, _, all⟩
    by_contra different
    exact notTail (all (block + 1) (by omega) (by omega))
  · rintro rfl
    exact ⟨le_rfl, by omega, fun other low high => absurd low (by omega)⟩

/-- The walk of `gc_free` frees the entries that it takes for the chunk, in the table
or behind it, and no others. -/
theorem gcFreeLoop_kinds (fuel : Nat) (state : MpStateMem) (block entry : Nat) :
    (block ≤ entry ∧ entry < block + fuel ∧ TailsUpTo state block entry →
      (gcFreeLoop fuel state block).atbGetKind entry = .free) ∧
    (¬ (block ≤ entry ∧ entry < block + fuel ∧ TailsUpTo state block entry) →
      (gcFreeLoop fuel state block).atbGetKind entry = state.atbGetKind entry) := by
  induction fuel generalizing state block with
  | zero => exact ⟨fun covered => absurd covered.2.1 (by omega), fun _ => rfl⟩
  | succ fuel ih =>
    have freed := state.kind_anyToFree block
    have next : (state.atbAnyToFree block).atbGetKind (block + 1) = state.atbGetKind (block + 1) := by
      rw [freed, if_neg (by omega)]
    simp only [gcFreeLoop, next]
    by_cases isTail : state.atbGetKind (block + 1) = .tail
    · simp only [isTail, if_true]
      obtain ⟨inside, outside⟩ := ih (state.atbAnyToFree block) (block + 1)
      constructor
      · rintro ⟨above, below, all⟩
        by_cases first : entry = block
        · rw [outside (by omega), freed, if_pos first]
        · exact inside ⟨by omega, by omega, (tailsUpTo_anyToFree isTail).mpr all⟩
      · intro missed
        have different : entry ≠ block := by
          rintro rfl
          exact missed ⟨le_rfl, by omega, fun other low high => absurd low (by omega)⟩
        rw [outside, freed, if_neg different]
        rintro ⟨above, below, later⟩
        exact missed ⟨by omega, by omega, (tailsUpTo_anyToFree isTail).mp later⟩
    · simp only [isTail, if_false, freed]
      rw [tailsUpTo_single isTail]
      exact ⟨fun same => if_pos same, fun different => if_neg different⟩

theorem gcFreeLoop_frame (fuel : Nat) (state : MpStateMem) (block : Nat) :
    { gcFreeLoop fuel state block with memory := state.memory } = state := by
  induction fuel generalizing state block with
  | zero => rfl
  | succ fuel ih =>
    rw [gcFreeLoop]
    split
    · exact congrArg (fun other : MpStateMem => { other with memory := state.memory })
        (ih (state.atbAnyToFree block) (block + 1))
    · rfl

/-- The entries after freeing the blocks from `first` up to `stop`. -/
def freedKind (kind : Nat → AtbKind) (first stop entry : Nat) : AtbKind :=
  if first ≤ entry ∧ entry < stop then .free else kind entry

/-- `gc_free` frees the chunk and nothing else of the table, and moves the hint back
if the chunk starts before it. -/
theorem gcFree_retabled (valid : state.layout.Valid config) (unlocked : state.gcLockDepth = 0)
    (chunk : Chunk state block length) (notNull : state.ptrFromBlock config block ≠ 0) :
    Retabled state (min (block / blocksPerAtb) state.gcLastFreeAtbIndex)
      (freedKind state.atbGetKind block (block + length))
      (gcFree config (state.ptrFromBlock config block) state) := by
  have open_ : ¬ state.gcLockDepth > 0 := by simp [unlocked]
  have unflagged : SameTable state
      (if config.enableFinaliser then state.ftbClear block else state) := by
    split
    · next enabled => exact (SameTable.ftb valid enabled block).2
    · exact SameTable.refl state
  simp only [gcFree, open_, notNull, if_false, MpStateMem.blockFromPtr_ptrFromBlock]
  generalize (if config.enableFinaliser then state.ftbClear block else state) = flagless at unflagged
  have few := valid.blocks_lt
  -- The loop starts from a heap with the same entries, whichever hint it has.
  have loop : ∀ hinted : MpStateMem, SameTable flagless
        { hinted with gcLastFreeAtbIndex := flagless.gcLastFreeAtbIndex } →
      Retabled state hinted.gcLastFreeAtbIndex
        (freedKind state.atbGetKind block (block + length))
        (gcFreeLoop config.wordSpace hinted block) := by
    intro hinted same
    have sameState := unflagged.trans same
    have blocks : hinted.blocks = state.blocks := sameState.blocks
    have kinds : ∀ entry < state.blocks, hinted.atbGetKind entry = state.atbGetKind entry :=
      fun entry inside => sameState.kind inside
    have inside := chunk.inside
    have kept : Chunk hinted block length := chunk.keep blocks
      (fun entry _ high => kinds entry (by omega))
      (fun within => by rw [kinds _ within]; exact chunk.ended within)
    have freed := Retabled.ofFrame (freedKind state.atbGetKind block (block + length))
      (gcFreeLoop_frame config.wordSpace hinted block) fun entry within => by
        have covered : (block ≤ entry ∧ entry < block + config.wordSpace ∧
            TailsUpTo hinted block entry) ↔ block ≤ entry ∧ entry < block + length := by
          rw [← kept.inChunk_iff]
          exact ⟨fun ⟨above, _, tails⟩ => ⟨above, within, tails⟩,
            fun member => ⟨member.above, by omega, member.tails⟩⟩
        have loopKinds := gcFreeLoop_kinds config.wordSpace hinted block entry
        rw [covered, kinds entry (by omega)] at loopKinds
        rw [freedKind]
        split
        · next member => exact loopKinds.1 member
        · next outside => exact loopKinds.2 outside
    exact ⟨freed.layout.trans sameState.layout, freed.gcLockDepth.trans sameState.gcLockDepth,
      freed.gcLastFreeAtbIndex, fun entry within => freed.kinds entry (by omega)⟩
  by_cases earlier : block / blocksPerAtb < flagless.gcLastFreeAtbIndex
  · simp only [earlier, if_true]
    rw [min_eq_left (by rw [← unflagged.gcLastFreeAtbIndex]; omega)]
    exact loop { flagless with gcLastFreeAtbIndex := block / blocksPerAtb }
      ⟨rfl, rfl, rfl, fun _ _ _ => rfl⟩
  · simp only [earlier, if_false]
    rw [min_eq_right (by rw [← unflagged.gcLastFreeAtbIndex]; omega), ← unflagged.gcLastFreeAtbIndex]
    exact loop _ (SameTable.refl _)

/-! ## Resizing -/

/-- Behind the chunk the scan of `gc_realloc` counts free blocks only. -/
theorem gcReallocScan_free (attached : TailsAttached state) (newBlocks nBlocks : Nat)
    (fuel bl nFree : Nat) (within : bl + fuel ≤ state.blocks)
    (passed : nFree ≤ bl ∧ ∀ block, bl - nFree ≤ block → block < bl → state.atbGetKind block = .free)
    (notTail : nFree = 0 → 0 < fuel → state.atbGetKind bl ≠ .tail) :
    ∃ more, gcReallocScan state newBlocks fuel bl (nBlocks, nFree) = (nBlocks, nFree + more) ∧
      bl + more ≤ state.blocks ∧
      ∀ block, bl ≤ block → block < bl + more → state.atbGetKind block = .free := by
  induction fuel generalizing bl nFree with
  | zero => exact ⟨0, rfl, by omega, fun block low high => absurd high (by omega)⟩
  | succ fuel ih =>
    cases kind : state.atbGetKind bl with
    | head | mark =>
      refine ⟨0, ?_, by omega, fun block low high => absurd high (by omega)⟩
      simp [gcReallocScan, kind]
    | tail =>
      -- A tail cannot follow a free block.
      by_cases none : nFree = 0
      · exact absurd kind (notTail none (by omega))
      · obtain ⟨_, used⟩ := attached bl (by omega) kind
        exact absurd (passed.2 (bl - 1) (by omega) (by omega)) used
    | free =>
      simp only [gcReallocScan, kind]
      split
      · refine ⟨1, rfl, by omega, fun block low high => ?_⟩
        obtain rfl : block = bl := by omega
        exact kind
      · obtain ⟨more, scanned, bounded, free⟩ := ih (bl + 1)
          (nFree + 1) (by omega)
          ⟨by omega, fun block low high => by
            by_cases last : block = bl
            · exact last ▸ kind
            · exact passed.2 block (by omega) (by omega)⟩
          (fun none => absurd none (by omega))
        refine ⟨more + 1, ?_, by omega, fun block low high => ?_⟩
        · rw [scanned, Nat.add_assoc, Nat.add_comm 1]
        · by_cases first : block = bl
          · exact first ▸ kind
          · exact free block (by omega) (by omega)

/-- `gc_realloc` counts the blocks of the chunk, and free blocks behind it. -/
theorem gcReallocCounts_spec (attached : TailsAttached state) (chunk : Chunk state block length)
    (newBlocks : Nat) :
    ∃ nFree, gcReallocCounts state block newBlocks = (length, nFree) ∧
      block + length + nFree ≤ state.blocks ∧
      ∀ entry, block + length ≤ entry → entry < block + length + nFree →
        state.atbGetKind entry = .free := by
  have inside := chunk.inside
  have positive := chunk.positive
  -- First the tails of the chunk, `count` of them still ahead.
  have tails : ∀ count, count < length →
      gcReallocScan state newBlocks (state.blocks - (block + length) + count)
        (block + length - count) (length - count, 0) =
      gcReallocScan state newBlocks (state.blocks - (block + length)) (block + length) (length, 0) := by
    intro count
    induction count with
    | zero => intro _; rfl
    | succ count ih =>
      intro more
      rw [← ih (by omega), ← Nat.add_assoc, gcReallocScan]
      have isTail := chunk.tails (block + length - (count + 1)) (by omega) (by omega)
      simp only [isTail]
      congr 2 <;> omega
  have start := tails (length - 1) (by omega)
  obtain ⟨nFree, scanned, bounded, free⟩ := gcReallocScan_free attached newBlocks length
    (state.blocks - (block + length)) (block + length) 0 (by omega)
    ⟨by omega, fun other low high => absurd high (by omega)⟩
    (fun _ more => chunk.ended (by omega))
  refine ⟨nFree, ?_, bounded, free⟩
  rw [gcReallocCounts, show state.blocks - (block + 1) =
    state.blocks - (block + length) + (length - 1) by omega,
    show block + 1 = block + length - (length - 1) by omega,
    show (1, 0) = (length - (length - 1), 0) by rw [show length - (length - 1) = 1 by omega], start,
    scanned, Nat.zero_add]

theorem gcReallocShrink_retabled {block nBlocks newBlocks : Nat} (smaller : newBlocks < nBlocks) :
    Retabled state (min ((block + newBlocks) / blocksPerAtb) state.gcLastFreeAtbIndex)
      (freedKind state.atbGetKind (block + newBlocks) (block + nBlocks))
      (gcReallocShrink state block nBlocks newBlocks) := by
  have frame := foldl_frame MpStateMem.atbAnyToFree (fun state block => rfl)
    (range' (block + newBlocks) (nBlocks - newBlocks)) state
  have freed := Retabled.ofFrame
    (freedKind state.atbGetKind (block + newBlocks) (block + nBlocks)) frame fun entry _ => by
      rw [foldl_kind (fun _ => True) (fun state block _ => state.kind_anyToFree block) _
        (fun _ _ _ => trivial), freedKind]
      exact if_congr (by omega) rfl rfl
  unfold gcReallocShrink
  generalize (range' (block + newBlocks) (nBlocks - newBlocks)).foldl
    MpStateMem.atbAnyToFree state = after at freed
  have hint := freed.gcLastFreeAtbIndex
  by_cases earlier : (block + newBlocks) / blocksPerAtb < after.gcLastFreeAtbIndex
  · simp only [earlier, if_true]
    rw [min_eq_left (by omega)]
    exact freed.hinted _
  · simp only [earlier, if_false]
    rw [min_eq_right (by omega)]
    exact freed

theorem gcReallocExpand_retabled (valid : state.layout.Valid config)
    {ptr block nBlocks newBlocks : Nat} (nBytes : Nat) (above : state.layout.poolStart ≤ ptr)
    (larger : nBlocks < newBlocks)
    (free : ∀ entry, block + nBlocks ≤ entry → entry < block + newBlocks →
      state.atbGetKind entry = .free) :
    Retabled state state.gcLastFreeAtbIndex
      (fun entry => if block + nBlocks ≤ entry ∧ entry < block + newBlocks then .tail
        else state.atbGetKind entry)
      (gcReallocExpand config ptr nBytes state block nBlocks newBlocks) := by
  have frame := foldl_frame MpStateMem.atbFreeToTail (fun state block => rfl)
    (range' (block + nBlocks) (newBlocks - nBlocks)) state
  have taken := Retabled.ofFrame
    (fun entry => if block + nBlocks ≤ entry ∧ entry < block + newBlocks then .tail
      else state.atbGetKind entry) frame fun entry _ => by
      rw [foldl_kind (· = .free) (fun state block isFree => state.kind_freeToTail isFree)]
      · exact if_congr (by omega) rfl rfl
      · intro other low high
        exact free other low (by omega)
  unfold gcReallocExpand
  generalize (range' (block + nBlocks) (newBlocks - nBlocks)).foldl
    MpStateMem.atbFreeToTail state = after at taken
  have afterValid : after.layout.Valid config := taken.layout ▸ valid
  refine taken.andThen (SameTable.ofMemory afterValid fun address below => ?_)
  rw [taken.layout] at below
  split
  · exact memset_outside _ (.inl (by omega))
  · exact memset_outside _ (.inl (by omega))

end MultiPython.Heap
