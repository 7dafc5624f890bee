import MultiPython.Heap.Flags
import MultiPython.Heap.Reclaim

/-!
# What `gc_realloc` keeps

The contents and the finaliser flag of a chunk that is resized, and of every other one. Two
things go wrong. A size that does not round up is taken for no blocks at all, and the chunk is
freed under a pointer that is returned. And the walk of `gc_free` over a chunk that was moved
away from the end of the pool goes on behind the table, where it clears bits of the finaliser
table or of the pool.
-/

namespace MultiPython.Heap

open Option

variable {config : Config}

/-! ## The contract -/

/-- The chunk is there with its length, its contents and its finaliser flag. -/
structure KeptChunk (config : Config) (before after : MpStateMem) (block length : Nat) : Prop where
  chunk : Chunk after block length
  contents : ∀ index < length * config.bytesPerBlock,
    after.memory (before.ptrFromBlock config block + index) =
      before.memory (before.ptrFromBlock config block + index)
  flag : config.enableFinaliser = true → after.ftbGet block = before.ftbGet block

/-- The chunk at `block` is resized, and is at `target` now. A chunk that no root reaches may be
reclaimed by the collection of the allocation for a move. -/
structure Resized (config : Config) (roots : Roots) (state : MpStateMem)
    (block length nBytes : Nat) (after : MpStateMem) (target : Nat) : Prop where
  roomy : ∃ size, Chunk after target size ∧ nBytes ≤ size * config.bytesPerBlock
  contents : ∀ index < min (length * config.bytesPerBlock) nBytes,
    after.memory (state.ptrFromBlock config target + index) =
      state.memory (state.ptrFromBlock config block + index)
  flag : config.enableFinaliser = true → after.ftbGet target = state.ftbGet block
  others : ∀ other size, Chunk state other size → other ≠ block →
    KeptChunk config state after other size ∨ target ≠ block ∧
      (searchedHeap config (roots.holding (state.ptrFromBlock config block)) nBytes state).atbGetKind
        other = .free ∧
      ¬Reachable config state (roots.holding (state.ptrFromBlock config block)).all other
  gone : target ≠ block → ∀ entry, block ≤ entry → entry < block + length →
    after.atbGetKind entry = .free

/-- What `gc_realloc` promises for the chunk at `block`. -/
def ReallocSound (config : Config) (roots : Roots) (state : MpStateMem) (block length nBytes : Nat)
    (allowMove : Bool) : Prop :=
  ∃ after out, gcRealloc config roots (state.ptrFromBlock config block) nBytes allowMove state =
      some (after, out) ∧
    (out ≠ 0 → ∃ target, out = state.ptrFromBlock config target ∧
      Resized config roots state block length nBytes after target) ∧
    (out = 0 → 0 < nBytes → KeptChunk config state after block length)

/-! ## Where it fails -/

/-- The heap in which a move frees the old chunk, and the new pointer. -/
def copiedHeap (config : Config) (roots : Roots) (state : MpStateMem) (block length nBytes : Nat) :
    Option (MpStateMem × Nat) := do
  let (moved, ptrOut) ← gcAlloc config (roots.holding (state.ptrFromBlock config block)) nBytes
    (config.enableFinaliser && state.ftbGet block) state
  some ({ moved with
    memory := memcpy moved.memory ptrOut (state.ptrFromBlock config block)
      (length * config.bytesPerBlock) }, ptrOut)

/-- The heap in which the loop of `gc_free` starts. -/
def MpStateMem.unflagged (config : Config) (state : MpStateMem) (block : Nat) : MpStateMem :=
  if config.enableFinaliser then state.ftbClear block else state

/-- The byte is one of another chunk, or one that was copied to the new one. -/
def HeldByte (config : Config) (roots : Roots) (state : MpStateMem) (block length nBytes : Nat)
    (ptrOut address : Nat) : Prop :=
  (∃ other size, Chunk state other size ∧ other ≠ block ∧
      (searchedHeap config (roots.holding (state.ptrFromBlock config block)) nBytes state).atbGetKind
        other = .head ∧
      state.ptrFromBlock config other ≤ address ∧
      address < state.ptrFromBlock config other + size * config.bytesPerBlock) ∨
    ptrOut ≤ address ∧ address < ptrOut + min (length * config.bytesPerBlock) nBytes

/-- When the old chunk of a move is freed, the walk behind the table meets a tail in the
finaliser table or in a byte that is held. -/
def MoveStrays (config : Config) (roots : Roots) (state : MpStateMem) (block length nBytes : Nat) :
    Prop :=
  ∃ heap ptrOut entry, copiedHeap config roots state block length nBytes = some (heap, ptrOut) ∧
    ptrOut ≠ 0 ∧ Overrun config (heap.unflagged config block) block entry ∧
    (config.enableFinaliser = true ∨
      HeldByte config roots state block length nBytes ptrOut (heap.atbAddress entry))

/-- The chunk has to move: the blocks that it has and the free ones behind it are too few. -/
def HasToMove (config : Config) (state : MpStateMem) (block nBytes : Nat) : Prop :=
  (gcReallocCounts state block (gcReallocBlocks config nBytes)).1 +
    (gcReallocCounts state block (gcReallocBlocks config nBytes)).2 < gcReallocBlocks config nBytes

/-- When `gc_realloc` keeps its promise. -/
def ReallocFits (config : Config) (roots : Roots) (state : MpStateMem) (block length nBytes : Nat)
    (allowMove : Bool) : Prop :=
  state.gcLockDepth > 0 ∨
    RoundsUp config nBytes ∧
      ¬(allowMove = true ∧ HasToMove config state block nBytes ∧
        MoveStrays config roots state block length nBytes)

/-! ## The bytes after `gc_free` -/

theorem gcFreeLoop_memory (fuel : Nat) (state : MpStateMem) (block : Nat) {address : Nat}
    (apart : ∀ entry, block ≤ entry → entry < block + fuel → TailsUpTo state block entry →
      state.atbAddress entry ≠ address) :
    (gcFreeLoop fuel state block).memory address = state.memory address := by
  induction fuel generalizing state block with
  | zero => rfl
  | succ fuel ih =>
    have here : (state.atbAnyToFree block).memory address = state.memory address := by
      refine state.store_memory_other _ (Ne.symm (apart block le_rfl (by omega) ?_))
      exact fun other low high => absurd low (by omega)
    rw [gcFreeLoop]
    split
    · next isTail =>
        rw [state.kind_anyToFree, if_neg (by omega)] at isTail
        rw [ih _ _ fun entry low high tails => ?_, here]
        exact apart entry (by omega) (by omega) ((tailsUpTo_anyToFree isTail).mp tails)
    · exact here

theorem unflagged_layout (heap : MpStateMem) (block : Nat) :
    (heap.unflagged config block).layout = heap.layout := by
  unfold MpStateMem.unflagged
  split <;> rfl

theorem unflagged_blocks (heap : MpStateMem) (block : Nat) :
    (heap.unflagged config block).blocks = heap.blocks :=
  congrArg Layout.blocks (unflagged_layout heap block)

theorem tailsUpTo_unflagged {heap hinted : MpStateMem} {block entry : Nat}
    (memory : hinted.memory = (heap.unflagged config block).memory)
    (layout : hinted.layout = heap.layout) :
    TailsUpTo hinted block entry ↔ TailsUpTo (heap.unflagged config block) block entry := by
  have kinds (other : Nat) :
      hinted.atbGetKind other = (heap.unflagged config block).atbGetKind other :=
    MpStateMem.kind_congr (by
      rw [MpStateMem.atbAddress, MpStateMem.atbAddress, layout, unflagged_layout, memory])
  simp only [TailsUpTo, kinds]

section Free

variable {heap : MpStateMem} (invariant : HeapInvariant config heap) {block length : Nat}
  (chunk : Chunk heap block length)
include invariant chunk

theorem gcFree_eq : ∃ hinted : MpStateMem,
    hinted.memory = (heap.unflagged config block).memory ∧ hinted.layout = heap.layout ∧
      gcFree config (heap.ptrFromBlock config block) heap =
        gcFreeLoop config.wordSpace hinted block := by
  have within := chunk.inside
  have positive := chunk.positive
  have notNull := ptrFromBlock_ne_zero invariant.valid (show block < heap.blocks by omega)
  have open_ : ¬ heap.gcLockDepth > 0 := by simp [invariant.unlocked]
  have layout := @unflagged_layout config heap block
  simp only [gcFree, open_, notNull, if_false, MpStateMem.blockFromPtr_ptrFromBlock]
  change ∃ hinted : MpStateMem, _ ∧ _ ∧ gcFreeLoop config.wordSpace
    (if block / blocksPerAtb < (heap.unflagged config block).gcLastFreeAtbIndex then
      { heap.unflagged config block with gcLastFreeAtbIndex := block / blocksPerAtb }
    else heap.unflagged config block) block = _
  split
  · exact ⟨{ heap.unflagged config block with gcLastFreeAtbIndex := block / blocksPerAtb }, rfl,
      layout, rfl⟩
  · exact ⟨heap.unflagged config block, rfl, layout, rfl⟩

theorem gcFree_memory {address : Nat}
    (behind : heap.layout.allocTableStart + heap.layout.allocTableByteLen ≤ address)
    (apart : ∀ entry, Overrun config (heap.unflagged config block) block entry →
      heap.atbAddress entry ≠ address) :
    (gcFree config (heap.ptrFromBlock config block) heap).memory address =
      (heap.unflagged config block).memory address := by
  obtain ⟨hinted, memory, layout, free⟩ := gcFree_eq invariant chunk
  have addresses (entry : Nat) : hinted.atbAddress entry = heap.atbAddress entry := by
    rw [MpStateMem.atbAddress, MpStateMem.atbAddress, layout]
  rw [free, gcFreeLoop_memory, memory]
  intro entry low high tails
  rw [addresses]
  by_cases inside : entry < heap.blocks
  · have below := heap.atbAddress_lt inside
    omega
  · refine apart entry ⟨?_, high, (tailsUpTo_unflagged memory layout).mp tails⟩
    rw [unflagged_blocks]
    omega

theorem gcFree_stray {entry : Nat}
    (stray : Overrun config (heap.unflagged config block) block entry) :
    (gcFree config (heap.ptrFromBlock config block) heap).atbGetKind entry = .free := by
  obtain ⟨hinted, memory, layout, free⟩ := gcFree_eq invariant chunk
  have within := chunk.inside
  have behind := stray.behind
  rw [unflagged_blocks] at behind
  rw [free]
  exact (gcFreeLoop_kinds config.wordSpace hinted block entry).1
    ⟨by omega, stray.counted, (tailsUpTo_unflagged memory layout).mpr stray.tails⟩

end Free

/-! ## Resizing in place -/

theorem ptrFromBlock_add (state : MpStateMem) (block count : Nat) :
    state.ptrFromBlock config (block + count) =
      state.ptrFromBlock config block + count * config.bytesPerBlock := by
  simp only [MpStateMem.ptrFromBlock, Nat.add_mul]
  omega

theorem ptrFromBlock_mono (state : MpStateMem) {block other : Nat} (order : block ≤ other) :
    state.ptrFromBlock config block ≤ state.ptrFromBlock config other := by
  have scaled := Nat.mul_le_mul_right config.bytesPerBlock order
  simp only [MpStateMem.ptrFromBlock]
  omega

theorem ptrFromBlock_injective (state : MpStateMem) {block other : Nat}
    (same : state.ptrFromBlock config block = state.ptrFromBlock config other) : block = other := by
  simp only [MpStateMem.ptrFromBlock] at same
  exact Nat.eq_of_mul_eq_mul_right config.bytesPerBlock_pos (by omega)

theorem le_blocksFor_mul (nBytes : Nat) :
    nBytes ≤ blocksFor config nBytes * config.bytesPerBlock := by
  have positive := config.bytesPerBlock_pos
  have whole := Nat.div_add_mod (nBytes + config.bytesPerBlock - 1) config.bytesPerBlock
  have small := Nat.mod_lt (nBytes + config.bytesPerBlock - 1) positive
  rw [blocksFor, Nat.mul_comm]
  omega

section InPlace

variable {state after : MpStateMem} {block length nBytes size : Nat} (roots : Roots)
  (chunk : Chunk state block length)
include chunk

theorem resized_inPlace (roomy : Chunk after block size) (fits : nBytes ≤ size * config.bytesPerBlock)
    (keep : ∀ other count, other ≠ block → Chunk state other count → Chunk after other count)
    (memory : ∀ address, state.layout.poolStart ≤ address →
      address < state.ptrFromBlock config block + min (length * config.bytesPerBlock) nBytes ∨
        state.ptrFromBlock config (block + length) ≤ address ∧
        state.ptrFromBlock config (block + size) ≤ address →
          after.memory address = state.memory address)
    (flags : config.enableFinaliser = true → ∀ other < state.blocks,
      after.ftbGet other = state.ftbGet other) :
    Resized config roots state block length nBytes after block := by
  have inside (other count : Nat) (another : Chunk state other count) : other < state.blocks := by
    have within := another.inside
    have positive := another.positive
    omega
  have above (other : Nat) : state.layout.poolStart ≤ state.ptrFromBlock config other :=
    Nat.le_add_left _ _
  refine ⟨⟨size, roomy, fits⟩, fun index small => ?_,
    fun enabled => flags enabled block (inside block length chunk),
    fun other count another different => .inl ⟨keep other count different another,
      fun index small => ?_, fun enabled => flags enabled other (inside other count another)⟩,
    fun moved => absurd rfl moved⟩
  · have start := above block
    exact memory _ (by omega) (.inl (by omega))
  · have start := above other
    refine memory _ (by omega) ?_
    have stop := @ptrFromBlock_add config state other count
    by_cases before : other + count ≤ block
    · have order := @ptrFromBlock_mono config state _ _ before
      exact .inl (by omega)
    · have behindOld : block + length ≤ other :=
        (chunk.disjoint another (Ne.symm different)).resolve_right before
      have behindNew : block + size ≤ other :=
        (roomy.disjoint (keep other count different another) (Ne.symm different)).resolve_right before
      have oldOrder := @ptrFromBlock_mono config state _ _ behindOld
      have newOrder := @ptrFromBlock_mono config state _ _ behindNew
      exact .inr ⟨by omega, by omega⟩

theorem resized_same (fits : nBytes ≤ length * config.bytesPerBlock) :
    Resized config roots state block length nBytes state block :=
  resized_inPlace roots chunk chunk fits (fun _ _ _ another => another) (fun _ _ _ => rfl)
    fun _ _ _ => rfl

theorem resized_shrink (invariant : HeapInvariant config state) (some_ : 0 < size)
    (smaller : size < length) (fits : nBytes ≤ size * config.bytesPerBlock) :
    Resized config roots state block length nBytes (gcReallocShrink state block length size)
      block := by
  have within := chunk.inside
  have retabled := @gcReallocShrink_retabled state block length size smaller
  have freed : SameBehind state ((List.range' (block + size) (length - size)).foldl
      MpStateMem.atbAnyToFree state) :=
    SameBehind.range' (fun _ _ below => SameBehind.store below _) (by omega)
  have same : SameBehind state (gcReallocShrink state block length size) := by
    unfold gcReallocShrink
    simp only
    split
    · exact ⟨freed.layout, freed.memory⟩
    · exact freed
  refine resized_inPlace roots chunk (free_chunk chunk smaller retabled some_) fits
    (fun _ _ different another => free_keep chunk retabled another different)
    (fun address above _ => same.memory address (invariant.valid.tableBelowPool.trans above))
    fun enabled other _ => same.ftbGet invariant.valid enabled other

theorem resized_expand (invariant : HeapInvariant config state) (larger : length < size)
    (inside : block + size ≤ state.blocks)
    (free : ∀ entry, block + length ≤ entry → entry < block + size → state.atbGetKind entry = .free)
    (bytes : length * config.bytesPerBlock < nBytes) (fits : nBytes ≤ size * config.bytesPerBlock) :
    Resized config roots state block length nBytes
      (gcReallocExpand config (state.ptrFromBlock config block) nBytes state block length size)
      block := by
  have above : state.layout.poolStart ≤ state.ptrFromBlock config block := Nat.le_add_left _ _
  have retabled := gcReallocExpand_retabled invariant.valid nBytes above larger free
  have taken : SameBehind state ((List.range' (block + length) (size - length)).foldl
      MpStateMem.atbFreeToTail state) :=
    SameBehind.range' (fun _ _ below => SameBehind.store below _) (by omega)
  have stop := @ptrFromBlock_add config state block size
  have wide : length * config.bytesPerBlock + (size - length) * config.bytesPerBlock =
      size * config.bytesPerBlock := by
    rw [← Nat.add_mul]
    congr 1
    omega
  have memory : ∀ address,
      state.layout.allocTableStart + state.layout.allocTableByteLen ≤ address →
      address < state.ptrFromBlock config block + length * config.bytesPerBlock ∨
        state.ptrFromBlock config (block + size) ≤ address →
      (gcReallocExpand config (state.ptrFromBlock config block) nBytes state block length
        size).memory address = state.memory address := by
    intro address behind outside
    rw [← taken.memory address behind]
    unfold gcReallocExpand
    simp only
    split
    · exact memset_outside _ (by omega)
    · exact memset_outside _ (by omega)
  refine resized_inPlace roots chunk (expand_chunk invariant chunk larger inside free retabled) fits
    (fun _ _ different another => expand_keep chunk larger free retabled another different)
    (fun address inPool outside =>
      memory address (invariant.valid.tableBelowPool.trans inPool) (by omega))
    fun enabled other within => MpStateMem.ftbGet_congr ?_
  have below := ftbAddress_lt_poolStart invariant.valid within enabled
  have sameAddress : (gcReallocExpand config (state.ptrFromBlock config block) nBytes state block
      length size).ftbAddress other = state.ftbAddress other := by
    rw [MpStateMem.ftbAddress, MpStateMem.ftbAddress, retabled.layout]
  rw [sameAddress]
  refine memory _ ?_ (.inl (by omega))
  rw [MpStateMem.ftbAddress, invariant.valid.finaliserAfterTable enabled]
  exact Nat.le_add_right _ _

end InPlace

/-! ## Moving -/

theorem MaybeCollected.others {roots : Roots} {before after : MpStateMem}
    (maybe : MaybeCollected config roots before after) (invariant : HeapInvariant config before)
    {block : Nat} (inside : block < before.blocks) (isHead : before.atbGetKind block = .head) :
    after.atbGetKind block = .head ∨
      after.atbGetKind block = .free ∧ ¬Reachable config before roots.all block := by
  rcases maybe with rfl | run
  · exact .inl isHead
  · obtain ⟨final, finalRun, _, _, kinds⟩ := gcCollect_collects invariant.valid invariant.attached
      invariant.wellFormed.unmarked roots.state roots.areas
    obtain rfl := some.inj (run.symm.trans finalRun)
    obtain ⟨kept, lost⟩ := kinds block inside
    rw [owner_of_ne_tail (by simp [isHead])] at kept lost
    by_cases traced : Traced config before (roots.state ++ roots.areas.flatten) block
    · exact .inl ((kept traced).trans isHead)
    · exact .inr ⟨lost traced, fun reachable => traced (reachable.traced invariant.valid)⟩

/-- The heap in which a move frees the old chunk. -/
structure Copied (config : Config) (roots : Roots) (state : MpStateMem) (block length nBytes : Nat)
    (searched heap : MpStateMem) (target : Nat) : Prop where
  layout : heap.layout = state.layout
  invariant : HeapInvariant config heap
  new : Chunk heap target (blocksFor config nBytes)
  different : target ≠ block
  fresh : searched.atbGetKind target = .free
  kept : searched.atbGetKind block = .head
  survivors : ∀ other size, Chunk state other size → searched.atbGetKind other = .head →
    Chunk heap other size ∧ ∀ index < size * config.bytesPerBlock,
      heap.memory (state.ptrFromBlock config other + index) =
        state.memory (state.ptrFromBlock config other + index)
  others : ∀ other size, Chunk state other size → searched.atbGetKind other = .head ∨
    searched.atbGetKind other = .free ∧
      ¬Reachable config state (roots.holding (state.ptrFromBlock config block)).all other
  copy : ∀ index < length * config.bytesPerBlock,
    heap.memory (state.ptrFromBlock config target + index) =
      state.memory (state.ptrFromBlock config block + index)
  flags : config.enableFinaliser = true → ∀ other < state.blocks, heap.ftbGet other =
    (decide (other = target) && state.ftbGet block ||
      decide (searched.atbGetKind other = .head) && state.ftbGet other)

section Move

variable {state : MpStateMem} (invariant : HeapInvariant config state)
  (flags : FlagsOnHeads config state) (roots : Roots) {block length nBytes : Nat}
  (chunk : Chunk state block length) (size : nBytes < config.wordSpace)
include invariant flags chunk size

/-- The allocation of a move fails and keeps the chunk, or the chunk is copied. -/
theorem copiedHeap_spec (larger : length ≤ blocksFor config nBytes) :
    ∃ moved ptrOut, gcAlloc config (roots.holding (state.ptrFromBlock config block)) nBytes
        (config.enableFinaliser && state.ftbGet block) state = some (moved, ptrOut) ∧
      (ptrOut = 0 ∧ KeptChunk config state moved block length ∨
        ∃ target, ptrOut = state.ptrFromBlock config target ∧ ptrOut ≠ 0 ∧
          Copied config roots state block length nBytes
            (searchedHeap config (roots.holding (state.ptrFromBlock config block)) nBytes state)
            { moved with
              memory := memcpy moved.memory ptrOut (state.ptrFromBlock config block)
                (length * config.bytesPerBlock) }
            target) := by
  have within := chunk.inside
  have positive := chunk.positive
  have inside (other count : Nat) (another : Chunk state other count) : other < state.blocks := by
    have within := another.inside
    have positive := another.positive
    omega
  obtain ⟨moved, ptrOut, run, maybe, outcome⟩ := gcAlloc_spec invariant
    (roots.holding (state.ptrFromBlock config block)) size (config.enableFinaliser && state.ftbGet block)
  generalize searchedEq : searchedHeap config (roots.holding (state.ptrFromBlock config block)) nBytes
    state = searched at maybe outcome ⊢
  refine ⟨moved, ptrOut, run, ?_⟩
  obtain ⟨searchedInvariant, survives, rooted⟩ := maybe.spec invariant
  obtain ⟨contents, searchedFlags⟩ := maybe.bytes invariant flags
  have points := wordBlock_ptrFromBlock invariant.valid (inside block length chunk)
  -- The old pointer is on the stack, so its chunk has survived a collection.
  have kept : searched.atbGetKind block = .head :=
    rooted _ (by simp [Roots.all, Roots.holding]) block points chunk.head
  rcases outcome with ⟨rfl, refused⟩ | ⟨target, rfl, notNull, granted⟩
  · refine .inl ⟨rfl, refused.same ▸ ⟨survives.keep block length chunk kept, fun index _ => ?_,
      fun enabled => ?_⟩⟩
    · refine contents _ ?_
      simp only [MpStateMem.ptrFromBlock]
      omega
    · rw [searchedFlags enabled block (inside block length chunk), kept]
      simp
  · refine .inr ⟨target, rfl, notNull, ?_⟩
    obtain ⟨again, same, bytes⟩ := gcAlloc_bytes invariant _ size _ run notNull
    obtain rfl := ptrFromBlock_injective state same
    rw [searchedEq] at bytes
    have fresh : searched.atbGetKind target = .free :=
      granted.free target le_rfl (Nat.lt_add_of_pos_right granted.chunk.positive)
    have different : target ≠ block := by
      rintro rfl
      rw [kept] at fresh
      cases fresh
    have sameLayout : moved.layout = state.layout := granted.layout.trans survives.layout
    have targetEnd := @ptrFromBlock_add config state target (blocksFor config nBytes)
    have copiedFits : length * config.bytesPerBlock ≤
        blocksFor config nBytes * config.bytesPerBlock := Nat.mul_le_mul_right _ larger
    have inPool (other : Nat) : state.layout.poolStart ≤ state.ptrFromBlock config other :=
      Nat.le_add_left _ _
    have samePtr (other : Nat) :
        searched.ptrFromBlock config other = state.ptrFromBlock config other := by
      simp only [MpStateMem.ptrFromBlock, survives.layout]
    have sameTable : SameTable moved { moved with
        memory := memcpy moved.memory (state.ptrFromBlock config target)
          (state.ptrFromBlock config block) (length * config.bytesPerBlock) } := by
      refine SameTable.ofMemory granted.invariant.valid fun address below => ?_
      have start := inPool target
      rw [sameLayout] at below
      rw [memcpy, if_neg (by omega)]
    have survivor : ∀ other count, Chunk state other count → searched.atbGetKind other = .head →
        Chunk moved other count ∧ ∀ index < count * config.bytesPerBlock,
          moved.memory (state.ptrFromBlock config other + index) =
              state.memory (state.ptrFromBlock config other + index) ∧
            (state.ptrFromBlock config other + index < state.ptrFromBlock config target ∨
              state.ptrFromBlock config target + blocksFor config nBytes * config.bytesPerBlock ≤
                state.ptrFromBlock config other + index) := by
      intro other count another isHead
      have searchedChunk := survives.keep other count another isHead
      have movedChunk := granted.keep other count searchedChunk
      have apart : other ≠ target := by
        rintro rfl
        rw [isHead] at fresh
        cases fresh
      have stop := @ptrFromBlock_add config state other count
      have start := inPool other
      have outside : ∀ index < count * config.bytesPerBlock,
          state.ptrFromBlock config other + index < state.ptrFromBlock config target ∨
            state.ptrFromBlock config target + blocksFor config nBytes * config.bytesPerBlock ≤
              state.ptrFromBlock config other + index := by
        intro index small
        rcases movedChunk.disjoint granted.chunk apart with before | behind
        · have order := @ptrFromBlock_mono config state _ _ before
          exact .inl (by omega)
        · have order := @ptrFromBlock_mono config state _ _ behind
          exact .inr (by omega)
      refine ⟨movedChunk, fun index small => ⟨?_, outside index small⟩⟩
      have away := outside index small
      rw [bytes.pool _ (by rw [survives.layout]; omega) (by rw [samePtr, samePtr]; omega)]
      exact contents _ (by omega)
    refine ⟨sameLayout, granted.invariant.sameTable sameTable, sameTable.chunk granted.chunk,
      different, fresh, kept, fun other count another isHead => ?_, fun other count another =>
        maybe.others invariant (inside other count another) another.head, fun index small => ?_,
      fun enabled other below => ?_⟩
    · obtain ⟨movedChunk, same⟩ := survivor other count another isHead
      refine ⟨sameTable.chunk movedChunk, fun index small => ?_⟩
      obtain ⟨unchanged, away⟩ := same index small
      rw [← unchanged]
      exact if_neg (by omega)
    · obtain ⟨unchanged, _⟩ := (survivor block length chunk kept).2 index small
      rw [← unchanged]
      change memcpy _ _ _ _ _ = _
      rw [memcpy, if_pos (by omega), Nat.add_sub_cancel_left]
    · have movedValid : moved.layout.Valid config := granted.invariant.valid
      have movedInside : other < moved.blocks := by
        have blocks : moved.blocks = state.blocks := congrArg Layout.blocks sameLayout
        omega
      have searchedInside : other < searched.blocks := by
        rw [survives.blocks]
        exact below
      rw [ftbGet_ofMemory movedValid enabled (fun address low => ?_) movedInside,
        bytes.flags enabled other searchedInside, searchedFlags enabled other below, enabled,
        Bool.true_and]
      have start := inPool target
      rw [sameLayout] at low
      rw [memcpy, if_neg (by omega)]

end Move

theorem unflagged_memory {heap : MpStateMem} (valid : heap.layout.Valid config) {block address : Nat}
    (inside : block < heap.blocks) (inPool : heap.layout.poolStart ≤ address) :
    (heap.unflagged config block).memory address = heap.memory address := by
  unfold MpStateMem.unflagged
  split
  · next enabled =>
      have below := ftbAddress_lt_poolStart valid inside enabled
      exact heap.store_memory_other _ (by omega)
  · rfl

theorem ftbGet_one {heap : MpStateMem} (valid : heap.layout.Valid config)
    (enabled : config.enableFinaliser = true) :
    (heap.atbGetKind heap.blocks = .tail → heap.ftbGet 1 = true) ∧
      (heap.atbGetKind heap.blocks = .free → heap.ftbGet 1 = false) := by
  have flagBits (byte : Byte) :
      (AtbKind.ofBits (byte &&& 3#8) = .tail → (byte >>> 1 &&& 1#8 != 0#8) = true) ∧
      (AtbKind.ofBits (byte &&& 3#8) = .free → (byte >>> 1 &&& 1#8 != 0#8) = false) := by
    have upper : byte >>> 1 &&& 1#8 = (byte &&& 3#8) >>> 1 := by
      rw [BitVec.ushiftRight_and_distrib]
      rfl
    rw [upper, AtbKind.ofBits_eq_tail, AtbKind.ofBits_eq_free]
    constructor <;> (intro bits; rw [bits]; rfl)
  have blocks : heap.blocks = heap.layout.allocTableByteLen * blocksPerAtb := rfl
  have entryByte : heap.atbAddress heap.blocks = heap.ftbAddress 1 := by
    rw [MpStateMem.atbAddress, MpStateMem.ftbAddress, blocks, valid.finaliserAfterTable enabled,
      Nat.mul_div_cancel _ (by decide)]
    rfl
  have slot : blockShift heap.blocks = 0 := by
    rw [blockShift, blocks, blocksPerAtb, Nat.and_two_pow_sub_one_eq_mod _ 2]
    omega
  have bits := flagBits (heap.memory (heap.ftbAddress 1))
  simp only [MpStateMem.atbGetKind, entryByte, slot, BitVec.ushiftRight_zero, MpStateMem.ftbGet]
  exact bits

section Freed

variable {state searched heap : MpStateMem} {roots : Roots} {block length nBytes target : Nat}
  (copied : Copied config roots state block length nBytes searched heap target)
  (chunk : Chunk state block length)
  (searchedIs : searchedHeap config (roots.holding (state.ptrFromBlock config block)) nBytes state =
    searched)
include copied

theorem Copied.ptr (other : Nat) :
    heap.ptrFromBlock config other = state.ptrFromBlock config other := by
  simp only [MpStateMem.ptrFromBlock, copied.layout]

include chunk

theorem Copied.old : Chunk heap block length :=
  (copied.survivors block length chunk copied.kept).1

theorem Copied.freedLayout :
    (gcFree config (state.ptrFromBlock config block) heap).layout = heap.layout := by
  obtain ⟨hinted, _, layout, free⟩ := gcFree_eq copied.invariant (copied.old chunk)
  rw [← copied.ptr, free]
  exact (congrArg MpStateMem.layout (gcFreeLoop_frame config.wordSpace hinted block)).trans layout

theorem Copied.freedKinds {entry : Nat} (inside : entry < state.blocks) :
    (gcFree config (state.ptrFromBlock config block) heap).atbGetKind entry =
      freedKind heap.atbGetKind block (block + length) entry := by
  have old := copied.old chunk
  have within := old.inside
  have positive := old.positive
  have notNull := ptrFromBlock_ne_zero copied.invariant.valid (show block < heap.blocks by omega)
  have freed := gcFree_retabled copied.invariant.valid copied.invariant.unlocked old notNull
  rw [copied.ptr] at freed
  have blocks : heap.blocks = state.blocks := congrArg Layout.blocks copied.layout
  exact freed.kinds entry (by omega)

theorem Copied.freedChunk {other size : Nat} (another : Chunk heap other size)
    (different : other ≠ block) :
    Chunk (gcFree config (state.ptrFromBlock config block) heap) other size := by
  have kept := (gcFree_invariant copied.invariant (copied.old chunk)).2 other size different another
  rwa [copied.ptr] at kept

include searchedIs

/-- Without a stray entry the move is as promised. -/
theorem Copied.resized
    (clean : ∀ entry, Overrun config (heap.unflagged config block) block entry →
      config.enableFinaliser = false ∧
        ¬HeldByte config roots state block length nBytes (state.ptrFromBlock config target)
          (heap.atbAddress entry)) :
    Resized config roots state block length nBytes
      (gcFree config (state.ptrFromBlock config block) heap) target := by
  have valid := copied.invariant.valid
  have old := copied.old chunk
  have oldInside : block < heap.blocks := by
    have within := old.inside
    have positive := old.positive
    omega
  have blocks : heap.blocks = state.blocks := congrArg Layout.blocks copied.layout
  have inPool (other index : Nat) :
      heap.layout.poolStart ≤ state.ptrFromBlock config other + index := by
    rw [← copied.ptr]
    simp only [MpStateMem.ptrFromBlock]
    omega
  have held : ∀ address, heap.layout.poolStart ≤ address →
      HeldByte config roots state block length nBytes (state.ptrFromBlock config target) address →
      (gcFree config (state.ptrFromBlock config block) heap).memory address =
        heap.memory address := by
    intro address above isHeld
    rw [← unflagged_memory valid oldInside above, ← copied.ptr]
    refine gcFree_memory copied.invariant old (valid.tableBelowPool.trans above)
      fun entry stray same => (clean entry stray).2 ?_
    rwa [same]
  have flags : config.enableFinaliser = true → ∀ other < state.blocks,
      (gcFree config (state.ptrFromBlock config block) heap).ftbGet other =
        (decide (other ≠ block) && heap.ftbGet other) := by
    intro enabled other inside
    have unflagged : heap.unflagged config block = heap.ftbClear block := if_pos enabled
    rw [← MpStateMem.ftbGet_ftbClear, ← unflagged]
    apply MpStateMem.ftbGet_congr
    rw [MpStateMem.ftbAddress, MpStateMem.ftbAddress, copied.freedLayout chunk, unflagged_layout,
      ← copied.ptr]
    refine gcFree_memory copied.invariant old ?_ fun entry stray => ?_
    · rw [valid.finaliserAfterTable enabled]
      exact Nat.le_add_right _ _
    · rw [enabled] at clean
      cases (clean entry stray).1
  have targetInside : target < state.blocks := by
    have within := copied.new.inside
    have positive := copied.new.positive
    omega
  refine ⟨⟨_, copied.freedChunk chunk copied.new copied.different, le_blocksFor_mul nBytes⟩,
    fun index small => ?_, fun enabled => ?_, fun other size another different => ?_,
    fun _ entry low high => ?_⟩
  · rw [held _ (inPool target index) (.inr ⟨by omega, by omega⟩), copied.copy index (by omega)]
  · rw [flags enabled target targetInside, copied.flags enabled target targetInside, copied.fresh]
    simp [copied.different]
  · have otherInside : other < state.blocks := by
      have within := another.inside
      have positive := another.positive
      omega
    rcases copied.others other size another with isHead | ⟨isFree, lost⟩
    · obtain ⟨still, contents⟩ := copied.survivors other size another isHead
      refine .inl ⟨copied.freedChunk chunk still different, fun index small => ?_,
        fun enabled => ?_⟩
      · rw [held _ (inPool other index) (.inl ⟨other, size, another, different,
          searchedIs ▸ isHead, by omega, by omega⟩)]
        exact contents index small
      · have notTarget : other ≠ target := by
          rintro rfl
          have fresh := copied.fresh
          rw [isHead] at fresh
          cases fresh
        rw [flags enabled other otherInside, copied.flags enabled other otherInside, isHead]
        simp [different, notTarget]
    · exact .inr ⟨copied.different, searchedIs ▸ isFree, lost⟩
  · have within := chunk.inside
    rw [copied.freedKinds chunk (by omega), freedKind, if_pos ⟨low, high⟩]

/-- A stray entry spoils the move. -/
theorem Copied.spoiled (survivesHead : ∀ other < state.blocks,
      searched.atbGetKind other = .head → state.atbGetKind other = .head)
    {entry : Nat} (stray : Overrun config (heap.unflagged config block) block entry)
    (harm : config.enableFinaliser = true ∨ HeldByte config roots state block length nBytes
      (state.ptrFromBlock config target) (heap.atbAddress entry)) :
    ¬Resized config roots state block length nBytes
      (gcFree config (state.ptrFromBlock config block) heap) target := by
  intro resized
  have valid := copied.invariant.valid
  have old := copied.old chunk
  have freed := copied.freedLayout chunk
  have blocks : heap.blocks = state.blocks := congrArg Layout.blocks copied.layout
  have oldInside : block < heap.blocks := by
    have within := old.inside
    have positive := old.positive
    omega
  have isFree : ∀ other, Overrun config (heap.unflagged config block) block other →
      (gcFree config (state.ptrFromBlock config block) heap).atbGetKind other = .free := by
    intro other stray
    rw [← copied.ptr]
    exact gcFree_stray copied.invariant old stray
  have behind := stray.behind
  rw [unflagged_blocks] at behind
  have isTail := stray.tails entry (by omega) le_rfl
  by_cases enabled : config.enableFinaliser = true
  · -- The flag of block 1 is lost.
    have first : Overrun config (heap.unflagged config block) block heap.blocks :=
      ⟨(unflagged_blocks heap block).le, Nat.lt_of_le_of_lt behind stray.counted,
        fun other low high => stray.tails other low (high.trans behind)⟩
    have firstTail := first.tails heap.blocks oldInside le_rfl
    have firstFree := isFree _ first
    have unflagged : heap.unflagged config block = heap.ftbClear block := if_pos enabled
    have unflaggedValid : (heap.unflagged config block).layout.Valid config :=
      (unflagged_layout heap block).symm ▸ valid
    have freedValid : (gcFree config (state.ptrFromBlock config block) heap).layout.Valid config :=
      freed.symm ▸ valid
    have freedBlocks : (gcFree config (state.ptrFromBlock config block) heap).blocks = heap.blocks :=
      congrArg Layout.blocks freed
    have set := (ftbGet_one unflaggedValid enabled).1
      (by rw [unflagged_blocks]; exact firstTail)
    have lost := (ftbGet_one freedValid enabled).2 (by rw [freedBlocks]; exact firstFree)
    rw [unflagged, MpStateMem.ftbGet_ftbClear, Bool.and_eq_true, decide_eq_true_eq] at set
    obtain ⟨notBlock, set⟩ := set
    have oneInside : 1 < state.blocks := by
      have whole : state.blocks = state.layout.allocTableByteLen * 4 := rfl
      omega
    rw [copied.flags enabled 1 oneInside, Bool.or_eq_true, Bool.and_eq_true, Bool.and_eq_true,
      decide_eq_true_eq, decide_eq_true_eq] at set
    rcases set with ⟨isTarget, flagged⟩ | ⟨isHead, flagged⟩
    · have flag := resized.flag enabled
      rw [← isTarget, flagged, lost] at flag
      cases flag
    · obtain ⟨size, another⟩ := exists_chunk oneInside (survivesHead 1 oneInside isHead)
      rcases resized.others 1 size another notBlock with kept | ⟨_, reclaimed, _⟩
      · have flag := kept.flag enabled
        rw [flagged, lost] at flag
        cases flag
      · rw [searchedIs, isHead] at reclaimed
        cases reclaimed
  · -- A byte of a chunk is lost.
    have unflagged : heap.unflagged config block = heap := if_neg enabled
    have isHeld := harm.resolve_left enabled
    rw [unflagged] at isTail
    have sameByte : (gcFree config (state.ptrFromBlock config block) heap).memory
        (heap.atbAddress entry) = heap.memory (heap.atbAddress entry) := by
      rcases isHeld with ⟨other, size, another, different, isHead, low, high⟩ | ⟨low, high⟩
      · obtain ⟨index, place⟩ := Nat.exists_eq_add_of_le low
        rw [searchedIs] at isHead
        obtain ⟨_, contents⟩ := copied.survivors other size another isHead
        rcases resized.others other size another different with kept | ⟨_, reclaimed, _⟩
        · rw [place, contents index (by omega), kept.contents index (by omega)]
        · rw [searchedIs, isHead] at reclaimed
          cases reclaimed
      · obtain ⟨index, place⟩ := Nat.exists_eq_add_of_le low
        rw [place, copied.copy index (by omega), resized.contents index (by omega)]
    have address : (gcFree config (state.ptrFromBlock config block) heap).atbAddress entry =
        heap.atbAddress entry := by
      rw [MpStateMem.atbAddress, MpStateMem.atbAddress, freed]
    rw [← address] at sameByte
    have sameKind : (gcFree config (state.ptrFromBlock config block) heap).atbGetKind entry =
        heap.atbGetKind entry :=
      MpStateMem.kind_congr (sameByte.trans (by rw [address]))
    rw [isFree entry stray, isTail] at sameKind
    cases sameKind

end Freed

/-! ## The whole call -/

theorem searchedHeap_survives {state : MpStateMem} (invariant : HeapInvariant config state)
    (roots : Roots) {nBytes : Nat} (size : nBytes < config.wordSpace) :
    Survives state (searchedHeap config roots nBytes state) := by
  obtain ⟨_, _, _, maybe, _⟩ := gcAlloc_spec invariant roots size false
  exact (maybe.spec invariant).2.1

section WholeCall

variable {state : MpStateMem} (roots : Roots) {block length nBytes : Nat}

/-- The move of a chunk is as promised if and only if its free does not stray. -/
theorem gcReallocMove_sound_iff (invariant : HeapInvariant config state)
    (flags : FlagsOnHeads config state) (chunk : Chunk state block length)
    (size : nBytes < config.wordSpace) (larger : length ≤ blocksFor config nBytes)
    {allowMove : Bool}
    (ran : gcRealloc config roots (state.ptrFromBlock config block) nBytes allowMove state =
      gcReallocMove config roots (state.ptrFromBlock config block) nBytes state block length) :
    ReallocSound config roots state block length nBytes allowMove ↔
      ¬MoveStrays config roots state block length nBytes := by
  obtain ⟨moved, ptrOut, run, outcome⟩ := copiedHeap_spec invariant flags roots chunk size larger
  have copiedIs : copiedHeap config roots state block length nBytes = some ({ moved with
      memory := memcpy moved.memory ptrOut (state.ptrFromBlock config block)
        (length * config.bytesPerBlock) }, ptrOut) := by
    simp [copiedHeap, run]
  have unfolded := run
  unfold Roots.holding at unfolded
  rcases outcome with ⟨rfl, kept⟩ | ⟨target, rfl, notNull, copied⟩
  · refine iff_of_true ⟨moved, 0, ?_, fun some_ => absurd rfl some_, fun _ _ => kept⟩ ?_
    · rw [ran]
      simp [gcReallocMove, unfolded]
    · rintro ⟨heap, out, entry, isCopied, some_, _⟩
      rw [copiedIs, some.injEq, Prod.mk.injEq] at isCopied
      exact some_ isCopied.2.symm
  · generalize heapEq : { moved with
      memory := memcpy moved.memory (state.ptrFromBlock config target)
        (state.ptrFromBlock config block) (length * config.bytesPerBlock) } = heap at copiedIs copied
    have whole : gcRealloc config roots (state.ptrFromBlock config block) nBytes allowMove state =
        some (gcFree config (state.ptrFromBlock config block) heap,
          state.ptrFromBlock config target) := by
      rw [ran, ← heapEq]
      simp [gcReallocMove, unfolded, notNull]
    constructor
    · rintro ⟨after, out, result, promised, _⟩ ⟨again, againOut, entry, isCopied, _, stray, harm⟩
      rw [whole, some.injEq, Prod.mk.injEq] at result
      rw [copiedIs, some.injEq, Prod.mk.injEq] at isCopied
      obtain ⟨rfl, rfl⟩ := result
      obtain ⟨rfl, rfl⟩ := isCopied
      obtain ⟨place, same, resized⟩ := promised notNull
      obtain rfl := ptrFromBlock_injective state same
      exact copied.spoiled chunk rfl (searchedHeap_survives invariant _ size).head stray harm resized
    · intro clean
      refine ⟨_, _, whole, fun _ => ⟨target, rfl, copied.resized chunk rfl fun entry stray => ?_⟩,
        fun null => absurd null notNull⟩
      have harmless := fun harm => clean ⟨heap, _, entry, copiedIs, notNull, stray, harm⟩
      obtain ⟨disabled, unheld⟩ := not_or.mp harmless
      exact ⟨by simpa using disabled, unheld⟩

/-- For every well-formed heap, every live pointer and every size, `gc_realloc` keeps its promise
if and only if the size rounds up and the free of a move does not stray. -/
theorem gcRealloc_sound_iff (wellFormed : WellFormed config state) (hint : HintSound state)
    (flags : FlagsOnHeads config state) (chunk : Chunk state block length)
    (size : nBytes < config.wordSpace) (allowMove : Bool) :
    ReallocSound config roots state block length nBytes allowMove ↔
      ReallocFits config roots state block length nBytes allowMove := by
  have within := chunk.inside
  have positive := chunk.positive
  have blockBytes := config.bytesPerBlock_pos
  have notNull := ptrFromBlock_ne_zero wellFormed.valid (show block < state.blocks by omega)
  have refused {after : MpStateMem} (ran : gcRealloc config roots (state.ptrFromBlock config block)
      nBytes allowMove state = some (after, 0)) (kept : KeptChunk config state after block length) :
      ReallocSound config roots state block length nBytes allowMove :=
    ⟨after, 0, ran, fun some_ => absurd rfl some_, fun _ _ => kept⟩
  have inPlace {after : MpStateMem} (ran : gcRealloc config roots (state.ptrFromBlock config block)
      nBytes allowMove state = some (after, state.ptrFromBlock config block))
      (resized : Resized config roots state block length nBytes after block) :
      ReallocSound config roots state block length nBytes allowMove :=
    ⟨after, _, ran, fun _ => ⟨block, rfl, resized⟩, fun null => absurd null notNull⟩
  have same : KeptChunk config state state block length := ⟨chunk, fun _ _ => rfl, fun _ => rfl⟩
  by_cases locked : state.gcLockDepth > 0
  · refine iff_of_true ?_ (Or.inl locked)
    by_cases none_ : nBytes = 0
    · subst none_
      exact ⟨gcFree config (state.ptrFromBlock config block) state, 0, by simp [gcRealloc, notNull],
        by simp, by simp⟩
    · exact refused (by simp [gcRealloc, notNull, none_, locked]) same
  have invariant : HeapInvariant config state := ⟨wellFormed, hint, by simpa using locked⟩
  obtain ⟨nFree, counts, bounded, free⟩ := gcReallocCounts_spec invariant.attached chunk
    (gcReallocBlocks config nBytes)
  have movesIff : HasToMove config state block nBytes ↔
      length + nFree < gcReallocBlocks config nBytes := by
    rw [HasToMove, counts]
  by_cases fits : RoundsUp config nBytes
  · have count := gcReallocBlocks_eq fits
    rw [count] at counts movesIff
    have stays (few : ¬length + nFree < blocksFor config nBytes) :
        ReallocFits config roots state block length nBytes allowMove :=
      Or.inr ⟨fits, fun moves => few (movesIff.mp moves.2.1)⟩
    by_cases none_ : nBytes = 0
    · subst none_
      have nothing : blocksFor config 0 = 0 := Nat.div_eq_of_lt (by omega)
      refine iff_of_true ⟨gcFree config (state.ptrFromBlock config block) state, 0,
        by simp [gcRealloc, notNull], by simp, by simp⟩ (stays (by omega))
    · have roomy := @le_blocksFor_mul config nBytes
      by_cases equal : blocksFor config nBytes = length
      · rw [equal] at roomy counts
        refine iff_of_true (inPlace ?_ (resized_same roots chunk roomy)) (stays (by omega))
        simp [gcRealloc, notNull, none_, locked, count, counts, equal]
      by_cases smaller : blocksFor config nBytes < length
      · have some_ : 0 < blocksFor config nBytes := Nat.div_pos (by omega) blockBytes
        refine iff_of_true (inPlace ?_ (resized_shrink roots chunk invariant some_ smaller roomy))
          (stays (by omega))
        simp [gcRealloc, notNull, none_, locked, count, counts, equal, smaller]
      have larger : length < blocksFor config nBytes := by omega
      have bytes : length * config.bytesPerBlock < nBytes := by
        rw [blocksFor, Nat.lt_div_iff_mul_lt blockBytes] at larger
        omega
      by_cases room : blocksFor config nBytes ≤ length + nFree
      · refine iff_of_true (inPlace ?_ (resized_expand roots chunk invariant larger (by omega)
          (fun entry low high => free entry low (by omega)) bytes roomy)) (stays (by omega))
        simp [gcRealloc, notNull, none_, locked, count, counts, equal, smaller, room]
      cases allowMove with
      | false =>
        refine iff_of_true (refused ?_ same) (Or.inr ⟨fits, fun moves => by cases moves.1⟩)
        simp [gcRealloc, notNull, none_, locked, count, counts, equal, smaller, room]
      | true =>
        rw [gcReallocMove_sound_iff roots invariant flags chunk size larger.le (by
          simp [gcRealloc, notNull, none_, locked, count, counts, equal, smaller, room])]
        have moves := movesIff.mpr (by omega)
        simp [ReallocFits, locked, fits, moves]
  · -- The size is taken for no blocks, and the chunk is freed.
    have count := gcReallocBlocks_wrapped size fits
    rw [count] at counts
    have some_ : nBytes ≠ 0 := by
      rintro rfl
      have small := Nat.le_of_dvd config.wordSpace_pos config.bytesPerBlock_dvd_wordSpace
      unfold RoundsUp at fits
      omega
    refine iff_of_false ?_ (fun holds => holds.elim locked fun rounded => fits rounded.1)
    rintro ⟨after, out, ran, promised, _⟩
    have wrapped : gcRealloc config roots (state.ptrFromBlock config block) nBytes allowMove state =
        some (gcReallocShrink state block length 0, state.ptrFromBlock config block) := by
      have different : ¬0 = length := by omega
      simp [gcRealloc, notNull, some_, locked, count, counts, different, positive]
    rw [wrapped, some.injEq, Prod.mk.injEq] at ran
    obtain ⟨rfl, rfl⟩ := ran
    obtain ⟨target, isBlock, resized⟩ := promised notNull
    obtain rfl := ptrFromBlock_injective state isBlock
    obtain ⟨_, still, _⟩ := resized.roomy
    have isHead := still.head
    rw [(gcReallocShrink_retabled positive).kinds block (by omega), freedKind,
      if_pos ⟨by omega, by omega⟩] at isHead
    cases isHead

end WholeCall

/-! ## A heap of eight blocks -/

/-- One-block chunks at 0, 1 and 7; the finaliser flag of block 1 reads as a tail behind
block 7. -/
def strayHeap : MpStateMem :=
  { overrunHeap with
    memory := fun address =>
      match address with
      | 13 => 0x05#8
      | 14 => 0x40#8
      | 15 => 0x02#8
      | _ => 0#8
    layout := gcInitLayout smallConfig 13 144
    gcAutoCollectEnabled := false }

theorem strayHeap_wellFormed : WellFormed smallConfig strayHeap where
  valid := by constructor <;> decide
  attached := by
    unfold TailsAttached
    decide
  unmarked := by decide

theorem strayHeap_flags : FlagsOnHeads smallConfig strayHeap := by
  intro _
  decide

theorem strayHeap_chunk {block : Nat} (listed : block = 0 ∨ block = 1 ∨ block = 7) :
    Chunk strayHeap block 1 := by
  rcases listed with rfl | rfl | rfl
  · exact ⟨by decide, by decide, by decide, by omega, fun _ => by decide⟩
  · exact ⟨by decide, by decide, by decide, by omega, fun _ => by decide⟩
  · exact ⟨by decide, by decide, by decide, by omega, fun within =>
      absurd within (by decide)⟩

/-- The chunk at block 0 can be moved. -/
theorem gcRealloc_sound_move : ReallocSound smallConfig ⟨[], []⟩ strayHeap 0 1 32 true := by
  refine (gcRealloc_sound_iff ⟨[], []⟩ strayHeap_wellFormed (fun _ _ _ => Nat.zero_le _)
    strayHeap_flags (strayHeap_chunk (Or.inl rfl)) (by decide) true).mpr
      (Or.inr ⟨by unfold RoundsUp; decide, ?_⟩)
  rintro ⟨_, _, heap, ptrOut, entry, copied, _, stray, _⟩
  have ended : (copiedHeap smallConfig ⟨[], []⟩ strayHeap 0 1 32).map (fun result =>
      (result.1.blocks, (result.1.unflagged smallConfig 0).atbGetKind 1)) = some (8, .head) := by
    decide
  rw [copied, map_some, some.injEq, Prod.mk.injEq] at ended
  have blocks : heap.blocks = 8 := ended.1
  have behind := stray.behind
  rw [unflagged_blocks] at behind
  have isTail := stray.tails 1 (by omega) (by omega)
  rw [ended.2] at isTail
  cases isTail

/-- A size that wraps around frees the chunk, and the move of the last chunk takes the finaliser
flag of another one away. -/
theorem gcRealloc_unsound :
    ¬ReallocSound smallConfig ⟨[], []⟩ strayHeap 0 1 (2 ^ 32 - 1) true ∧
      ¬ReallocSound smallConfig ⟨[], []⟩ strayHeap 7 1 32 true := by
  constructor
  · rintro ⟨after, out, ran, promised, _⟩
    have freed : (gcRealloc smallConfig ⟨[], []⟩ (strayHeap.ptrFromBlock smallConfig 0) (2 ^ 32 - 1)
        true strayHeap).map (fun result => (result.2, result.1.atbGetKind 0)) =
          some (16, .free) := by decide
    rw [ran, map_some, some.injEq, Prod.mk.injEq] at freed
    obtain ⟨rfl, isFree⟩ := freed
    obtain ⟨target, place, resized⟩ := promised (by decide)
    have isBlock : target = 0 :=
      ptrFromBlock_injective strayHeap (place.symm.trans (by decide))
    obtain ⟨_, chunk, _⟩ := resized.roomy
    rw [isBlock] at chunk
    exact absurd (chunk.head.symm.trans isFree) (by decide)
  · rintro ⟨after, out, ran, promised, _⟩
    have moved : (gcRealloc smallConfig ⟨[], []⟩ (strayHeap.ptrFromBlock smallConfig 7) 32 true
        strayHeap).map (fun result => (result.2, result.1.atbGetKind 1, result.1.ftbGet 1)) =
          some (48, .head, false) := by decide
    rw [ran, map_some, some.injEq, Prod.mk.injEq, Prod.mk.injEq] at moved
    obtain ⟨rfl, isHead, lost⟩ := moved
    obtain ⟨target, _, resized⟩ := promised (by decide)
    rcases resized.others 1 1 (strayHeap_chunk (Or.inr (Or.inl rfl))) (by decide) with kept | ⟨_, reclaimed, _⟩
    · have flag := kept.flag rfl
      rw [lost] at flag
      exact absurd flag (by decide)
    · exact absurd reclaimed (by decide)

end MultiPython.Heap
