import MultiPython.Heap.Invariant

/-!
# The outcomes of allocating and resizing

Whole calls of `gc_alloc` and `gc_realloc` on a heap that satisfies the
invariant, with the collection they may run in the middle. A call always ends.
`gc_alloc` grants a chunk of the size asked for or finds that there is no run for
it; `gc_realloc` has four outcomes, one of which is that rounding the size up has
wrapped around.
-/

namespace MultiPython.Heap

variable {config : Config}

/-- The number of blocks that hold `nBytes` bytes. -/
def blocksFor (config : Config) (nBytes : Nat) : Nat :=
  (nBytes + config.bytesPerBlock - 1) / config.bytesPerBlock

/-- Rounding `nBytes` up to whole blocks stays within `size_t`. -/
def RoundsUp (config : Config) (nBytes : Nat) : Prop :=
  nBytes + (config.bytesPerBlock - 1) < config.wordSpace

variable {nBytes : Nat}

theorem gcReallocBlocks_eq (fits : RoundsUp config nBytes) :
    gcReallocBlocks config nBytes = blocksFor config nBytes := by
  have positive := config.bytesPerBlock_pos
  unfold RoundsUp at fits
  rw [gcReallocBlocks, blocksFor, Nat.mod_eq_of_lt (by omega)]

theorem gcAllocBlocks_eq_gcReallocBlocks (nBytes : Nat) :
    gcAllocBlocks config nBytes = gcReallocBlocks config nBytes := by
  rw [gcAllocBlocks, alignDown, gcReallocBlocks]
  exact Nat.mul_div_cancel _ config.bytesPerBlock_pos

theorem gcReallocBlocks_wrapped (size : nBytes < config.wordSpace)
    (wraps : ¬ RoundsUp config nBytes) : gcReallocBlocks config nBytes = 0 := by
  have positive := config.bytesPerBlock_pos
  have small := Nat.le_of_dvd config.wordSpace_pos config.bytesPerBlock_dvd_wordSpace
  unfold RoundsUp at wraps
  rw [gcReallocBlocks, Nat.mod_eq_sub_mod (by omega), Nat.mod_eq_of_lt (by omega)]
  exact Nat.div_eq_of_lt (by omega)

variable {state : MpStateMem}

theorem blocks_lt_blocksFor (valid : state.layout.Valid config) (wraps : ¬ RoundsUp config nBytes) :
    state.blocks < blocksFor config nBytes := by
  have positive := config.bytesPerBlock_pos
  obtain ⟨quotient, whole⟩ := config.bytesPerBlock_dvd_wordSpace
  have bounded := valid.poolBounded
  rw [valid.poolLength, whole] at bounded
  have few : state.blocks < quotient := by
    apply Nat.lt_of_mul_lt_mul_left (a := config.bytesPerBlock)
    rw [Nat.mul_comm _ state.blocks]
    have blocks : state.blocks = state.layout.blocks := rfl
    rw [blocks]
    omega
  refine Nat.lt_of_lt_of_le few ?_
  rw [blocksFor, Nat.le_div_iff_mul_le positive, Nat.mul_comm, ← whole]
  unfold RoundsUp at wraps
  omega

/-! ## What an allocation does -/

/-- The heap as it is, or after a collection. -/
def MaybeCollected (config : Config) (roots : Roots) (before after : MpStateMem) : Prop :=
  after = before ∨ gcCollect config roots.state roots.areas before = some after

/-- A collection that may have run keeps the invariant, the chunks whose heads it
keeps, and those that the roots point at. -/
theorem MaybeCollected.spec {roots : Roots} {before after : MpStateMem}
    (maybe : MaybeCollected config roots before after) (invariant : HeapInvariant config before) :
    HeapInvariant config after ∧ Survives before after ∧
      ∀ ptr ∈ roots.all, ∀ block, before.wordBlock config ptr = some block →
        before.atbGetKind block = .head → after.atbGetKind block = .head := by
  rcases maybe with rfl | run
  · exact ⟨invariant, Survives.refl _, fun _ _ _ _ isHead => isHead⟩
  · obtain ⟨final, finalRun, spec⟩ := gcCollect_invariant invariant roots
    obtain rfl : after = final := Option.some.inj (run.symm.trans finalRun)
    exact spec

/-- The search of `gc_alloc` ends, in a heap that may have been collected, and has
been if the search fails and collecting is enabled. -/
theorem gcAllocSearch_spec (invariant : HeapInvariant config state) (roots : Roots) (nBlocks : Nat) :
    ∃ searched, gcAllocSearch config roots nBlocks state =
        some (searched, gcSearch searched nBlocks) ∧
      MaybeCollected config roots state searched ∧
      (∀ nFree, gcSearch searched nBlocks = .ok nFree → state.gcAutoCollectEnabled = true →
        gcCollect config roots.state roots.areas state = some searched) := by
  obtain ⟨collected, run, _⟩ := gcCollect_invariant invariant roots
  cases auto : state.gcAutoCollectEnabled with
  | false =>
    refine ⟨state, ?_, Or.inl rfl, fun _ _ enabled => by cases enabled⟩
    cases found : gcSearch state nBlocks <;>
      simp [gcAllocSearch, gcAllocThresholdCollect, auto, found]
  | true =>
    by_cases reached : state.gcAllocAmount ≥ state.gcAllocThreshold
    · refine ⟨collected, ?_, Or.inr run, fun _ _ _ => run⟩
      cases found : gcSearch collected nBlocks <;>
        simp [gcAllocSearch, gcAllocThresholdCollect, auto, reached, run, found]
    · cases found : gcSearch state nBlocks with
      | error run' =>
        refine ⟨state, ?_, Or.inl rfl, fun nFree failed => ?_⟩
        · simp [gcAllocSearch, gcAllocThresholdCollect, auto, reached, found]
        · simp [found] at failed
      | ok nFree =>
        refine ⟨collected, ?_, Or.inr run, fun _ _ _ => run⟩
        simp [gcAllocSearch, gcAllocThresholdCollect, auto, reached, found, run]

/-- The heap in which `gc_alloc` looks for blocks: its collection, if it runs one, is
over, and nothing has been taken yet. -/
def searchedHeap (config : Config) (roots : Roots) (nBytes : Nat) (state : MpStateMem) :
    MpStateMem :=
  if gcAllocBlocks config nBytes = 0 ∨ state.gcLockDepth > 0 then
    state
  else
    match gcAllocSearch config roots (gcAllocBlocks config nBytes) state with
    | some (searched, _) => searched
    | none => state

/-- The allocation has turned free blocks into a new chunk and kept all others. -/
structure Granted (config : Config) (searched : MpStateMem) (nBytes block : Nat)
    (final : MpStateMem) : Prop where
  free : ∀ entry, block ≤ entry → entry < block + blocksFor config nBytes →
    searched.atbGetKind entry = .free
  chunk : Chunk final block (blocksFor config nBytes)
  layout : final.layout = searched.layout
  invariant : HeapInvariant config final
  keep : ∀ other length, Chunk searched other length → Chunk final other length

/-- The allocation has found no run, collected if it may, and changed nothing else. -/
structure Refused (config : Config) (roots : Roots) (state searched : MpStateMem) (nBytes : Nat)
    (final : MpStateMem) : Prop where
  same : final = searched
  none : ¬ HasFreeRun searched (blocksFor config nBytes)
  collected : state.gcAutoCollectEnabled = true → 0 < nBytes → RoundsUp config nBytes →
    gcCollect config roots.state roots.areas state = some searched

/-- `gc_alloc` ends, and either grants a chunk of the size asked for or refuses. -/
theorem gcAlloc_spec (invariant : HeapInvariant config state) (roots : Roots)
    (size : nBytes < config.wordSpace) (hasFinaliser : Bool) :
    ∃ final ptr, gcAlloc config roots nBytes hasFinaliser state = some (final, ptr) ∧
      MaybeCollected config roots state (searchedHeap config roots nBytes state) ∧
      (ptr = 0 ∧ Refused config roots state (searchedHeap config roots nBytes state) nBytes final ∨
        ∃ block, ptr = state.ptrFromBlock config block ∧ ptr ≠ 0 ∧
          Granted config (searchedHeap config roots nBytes state) nBytes block final) := by
  have open_ : ¬ state.gcLockDepth > 0 := by simp [invariant.unlocked]
  have positive := config.bytesPerBlock_pos
  by_cases none : gcAllocBlocks config nBytes = 0
  · have searched : searchedHeap config roots nBytes state = state := by simp [searchedHeap, none]
    rw [searched]
    refine ⟨state, 0, by simp [gcAlloc, none], Or.inl rfl, Or.inl ⟨rfl, rfl, ?_, ?_⟩⟩
    · rintro ⟨some_, first, within, _⟩
      by_cases fits : RoundsUp config nBytes
      · rw [gcAllocBlocks_eq_gcReallocBlocks, gcReallocBlocks_eq fits] at none
        omega
      · have := blocks_lt_blocksFor invariant.valid fits
        omega
    · intro _ some_ fits
      rw [gcAllocBlocks_eq_gcReallocBlocks, gcReallocBlocks_eq fits, blocksFor,
        Nat.div_eq_zero_iff] at none
      omega
  · have fits : RoundsUp config nBytes := by
      by_contra wraps
      exact none ((gcAllocBlocks_eq_gcReallocBlocks nBytes).trans (gcReallocBlocks_wrapped size wraps))
    have count : gcAllocBlocks config nBytes = blocksFor config nBytes :=
      (gcAllocBlocks_eq_gcReallocBlocks nBytes).trans (gcReallocBlocks_eq fits)
    obtain ⟨searched, search, maybe, collected⟩ :=
      gcAllocSearch_spec invariant roots (gcAllocBlocks config nBytes)
    have searchedEq : searchedHeap config roots nBytes state = searched := by
      simp [searchedHeap, none, search, invariant.unlocked]
    rw [searchedEq]
    obtain ⟨searchedInvariant, survives, _⟩ := maybe.spec invariant
    rw [count] at search collected none
    have some_ : 0 < blocksFor config nBytes := Nat.pos_of_ne_zero none
    cases found : gcSearch searched (blocksFor config nBytes) with
    | ok nFree =>
      refine ⟨searched, 0, ?_, maybe, Or.inl ⟨rfl, rfl, ?_, fun auto _ _ => ?_⟩⟩
      · simp [gcAlloc, count, none, open_, search, found]
      · exact gcSearch_none some_ searchedInvariant.hint found
      · exact collected nFree found auto
    | error run =>
      obtain ⟨endBlock, nFree⟩ := run
      obtain ⟨rfl, low, high, free, first⟩ := gcSearch_found some_ found
      obtain ⟨retabled, address⟩ := gcAllocTake_retabled searchedInvariant.valid nBytes hasFinaliser
        some_ low free
      have order : endBlock + 1 - blocksFor config nBytes ≤ endBlock := by omega
      have length : endBlock + 1 - (endBlock + 1 - blocksFor config nBytes) =
          blocksFor config nBytes := by omega
      have sameAddress : searched.ptrFromBlock config (endBlock + 1 - blocksFor config nBytes) =
          state.ptrFromBlock config (endBlock + 1 - blocksFor config nBytes) := by
        simp only [MpStateMem.ptrFromBlock, survives.layout]
      refine ⟨_, (gcAllocTake config nBytes (blocksFor config nBytes) hasFinaliser searched endBlock
        (blocksFor config nBytes)).2, ?_, maybe, Or.inr ⟨endBlock + 1 - blocksFor config nBytes, ?_, ?_,
        ⟨fun entry above below => free entry above (by omega), ?_, retabled.layout, ?_, ?_⟩⟩⟩
      · simp [gcAlloc, count, none, open_, search, found]
      · exact address.trans sameAddress
      · exact address ▸ ptrFromBlock_ne_zero searchedInvariant.valid (by omega)
      · have chunk := take_chunk searchedInvariant order high free retabled
        rwa [length] at chunk
      · refine searchedInvariant.take retabled ?_
        by_cases single : blocksFor config nBytes = 1
        · refine Or.inr ⟨by simp [single], fun entry before => ?_⟩
          exact first single entry (by omega)
        · exact Or.inl (by simp [single])
      · exact fun other size chunk => take_keep order free retabled chunk

/-! ## What resizing a chunk does -/

/-- The roots of the allocation inside `gc_realloc`, which has the old pointer on its
stack. -/
def Roots.holding (roots : Roots) (ptr : Nat) : Roots := { roots with areas := [ptr] :: roots.areas }

/-- The ways in which `gc_realloc` can end for the chunk at `block`. -/
inductive ReallocOutcome (config : Config) (roots : Roots) (state : MpStateMem)
    (block nBytes : Nat) : MpStateMem → Nat → Prop where
  /-- The size wraps around and is taken for no blocks at all. -/
  | wrapped {final} (wraps : ¬ RoundsUp config nBytes) (invariant : HeapInvariant config final) :
      ReallocOutcome config roots state block nBytes final (state.ptrFromBlock config block)
  /-- The chunk has the new length. -/
  | inPlace {final} (fits : RoundsUp config nBytes) (invariant : HeapInvariant config final)
      (chunk : Chunk final block (blocksFor config nBytes))
      (keep : ∀ other length, other ≠ block → Chunk state other length → Chunk final other length) :
      ReallocOutcome config roots state block nBytes final (state.ptrFromBlock config block)
  /-- There is no room, or moving is not allowed. -/
  | failed {final} (fits : RoundsUp config nBytes)
      (maybe : MaybeCollected config (roots.holding (state.ptrFromBlock config block)) state final) :
      ReallocOutcome config roots state block nBytes final 0
  /-- The chunk is at another place now. -/
  | moved {final searched target} (fits : RoundsUp config nBytes)
      (isSearched : searched = searchedHeap config
        (roots.holding (state.ptrFromBlock config block)) nBytes state)
      (maybe : MaybeCollected config (roots.holding (state.ptrFromBlock config block)) state searched)
      (different : target ≠ block) (notNull : state.ptrFromBlock config target ≠ 0)
      (invariant : HeapInvariant config final)
      (chunk : Chunk final target (blocksFor config nBytes))
      (keep : ∀ other length, other ≠ block → Chunk searched other length →
        other ≠ target ∧ Chunk final other length) :
      ReallocOutcome config roots state block nBytes final (state.ptrFromBlock config target)

theorem wordBlock_ptrFromBlock (valid : state.layout.Valid config) {block : Nat}
    (inside : block < state.blocks) :
    state.wordBlock config (state.ptrFromBlock config block) = some block := by
  have verified : state.verifyPtr config (state.ptrFromBlock config block) = true :=
    (MpStateMem.verifyPtr_iff valid).mpr ⟨block, inside, rfl⟩
  simp [MpStateMem.wordBlock, verified]

variable {nBytes block length : Nat}

/-- Moving a chunk: allocate, copy, free. -/
theorem gcReallocMove_outcome (invariant : HeapInvariant config state) (roots : Roots)
    (size : nBytes < config.wordSpace) (fits : RoundsUp config nBytes)
    (chunk : Chunk state block length) :
    ∃ final ptr, gcReallocMove config roots (state.ptrFromBlock config block) nBytes state block
        length = some (final, ptr) ∧
      ReallocOutcome config roots state block nBytes final ptr := by
  have within := chunk.inside
  have positive := chunk.positive
  have points := wordBlock_ptrFromBlock invariant.valid (show block < state.blocks by omega)
  obtain ⟨allocated, ptrOut, run, maybe, outcome⟩ := gcAlloc_spec invariant
    (roots.holding (state.ptrFromBlock config block)) size (config.enableFinaliser && state.ftbGet block)
  generalize searchedEq : searchedHeap config (roots.holding (state.ptrFromBlock config block)) nBytes
    state = searched at maybe outcome
  obtain ⟨searchedInvariant, survives, rooted⟩ := maybe.spec invariant
  rcases outcome with ⟨rfl, refused⟩ | ⟨target, rfl, notNull, granted⟩
  · refine ⟨allocated, 0, ?_, .failed fits (refused.same ▸ maybe)⟩
    unfold Roots.holding at run
    simp [gcReallocMove, run]
  · -- The old chunk is on the stack, so it has survived a collection.
    have oldSearched : Chunk searched block length := survives.keep block length chunk
      (rooted _ (by simp [Roots.all, Roots.holding]) block points chunk.head)
    have oldAllocated := granted.keep block length oldSearched
    have fresh : ∀ other count, Chunk searched other count → other ≠ target := by
      rintro other count another rfl
      have isFree := granted.free other le_rfl (Nat.lt_add_of_pos_right granted.chunk.positive)
      simp [another.head] at isFree
    have sameLayout : allocated.layout = state.layout := granted.layout.trans survives.layout
    let copied : MpStateMem := { allocated with
      memory := memcpy allocated.memory (state.ptrFromBlock config target)
        (state.ptrFromBlock config block) (length * config.bytesPerBlock) }
    have same : SameTable allocated copied := by
      refine SameTable.ofMemory granted.invariant.valid fun address below => ?_
      rw [memcpy, if_neg]
      rw [sameLayout] at below
      simp only [MpStateMem.ptrFromBlock]
      omega
    have oldCopied := same.chunk oldAllocated
    have copiedInvariant := granted.invariant.sameTable same
    have address : state.ptrFromBlock config block = copied.ptrFromBlock config block := by
      simp only [MpStateMem.ptrFromBlock, copied, sameLayout]
    obtain ⟨finalInvariant, kept⟩ := gcFree_invariant copiedInvariant oldCopied
    rw [← address] at finalInvariant kept
    have movedAway := (fresh block length oldSearched).symm
    refine ⟨gcFree config (state.ptrFromBlock config block) copied, _, ?_,
      .moved fits searchedEq.symm maybe movedAway notNull finalInvariant
        (kept _ _ movedAway (same.chunk granted.chunk)) ?_⟩
    · unfold Roots.holding at run
      simp [gcReallocMove, run, notNull, copied]
    · intro other count different another
      exact ⟨fresh other count another,
        kept other count different (same.chunk (granted.keep other count another))⟩

/-- `gc_realloc` of a chunk ends in one of the four ways. -/
theorem gcRealloc_outcome (invariant : HeapInvariant config state) (roots : Roots)
    (size : nBytes < config.wordSpace) (some_ : nBytes ≠ 0) (allowMove : Bool)
    (chunk : Chunk state block length) :
    ∃ final ptr, gcRealloc config roots (state.ptrFromBlock config block) nBytes allowMove state =
        some (final, ptr) ∧
      ReallocOutcome config roots state block nBytes final ptr := by
  have within := chunk.inside
  have positive := chunk.positive
  have notNull := ptrFromBlock_ne_zero invariant.valid (show block < state.blocks by omega)
  have open_ : ¬ state.gcLockDepth > 0 := by simp [invariant.unlocked]
  obtain ⟨nFree, counts, bounded, free⟩ := gcReallocCounts_spec invariant.attached chunk
    (gcReallocBlocks config nBytes)
  have shrunk : ∀ keep, keep < length →
      HeapInvariant config (gcReallocShrink state block length keep) := fun keep smaller =>
    invariant.free chunk rfl (gcReallocShrink_retabled smaller)
  simp only [gcRealloc, notNull, some_, open_, if_false, MpStateMem.blockFromPtr_ptrFromBlock, counts]
  by_cases fits : RoundsUp config nBytes
  · rw [gcReallocBlocks_eq fits]
    by_cases equal : blocksFor config nBytes = length
    · simp only [equal, if_true]
      exact ⟨_, _, rfl, .inPlace fits invariant (equal ▸ chunk) fun _ _ _ another => another⟩
    · by_cases smaller : blocksFor config nBytes < length
      · simp only [equal, smaller, if_true, if_false]
        have nonempty : 0 < blocksFor config nBytes := by
          rw [blocksFor]
          exact Nat.div_pos (by omega) config.bytesPerBlock_pos
        have retabled := @gcReallocShrink_retabled state block _ _ smaller
        exact ⟨_, _, rfl, .inPlace fits (shrunk _ smaller)
          (free_chunk chunk smaller retabled nonempty)
          fun _ _ different another => free_keep chunk retabled another different⟩
      · by_cases room : blocksFor config nBytes ≤ length + nFree
        · simp only [equal, smaller, room, if_true, if_false]
          have larger : length < blocksFor config nBytes := by omega
          have available : ∀ entry, block + length ≤ entry →
              entry < block + blocksFor config nBytes → state.atbGetKind entry = .free :=
            fun entry low high => free entry low (by omega)
          have retabled := gcReallocExpand_retabled invariant.valid nBytes
            (show state.layout.poolStart ≤ state.ptrFromBlock config block from
              Nat.le_add_left _ _) larger available
          exact ⟨_, _, rfl, .inPlace fits (invariant.expand chunk retabled)
            (expand_chunk invariant chunk larger (by omega) available retabled)
            fun _ _ different another => expand_keep chunk larger available retabled another different⟩
        · simp only [equal, smaller, room, if_false]
          cases allowMove with
          | false => exact ⟨_, _, rfl, .failed fits (Or.inl rfl)⟩
          | true => exact gcReallocMove_outcome invariant roots size fits chunk
  · rw [gcReallocBlocks_wrapped size fits]
    have different : ¬ 0 = length := by omega
    simp only [different, positive, if_true, if_false]
    exact ⟨_, _, rfl, .wrapped fits (shrunk 0 positive)⟩

end MultiPython.Heap
