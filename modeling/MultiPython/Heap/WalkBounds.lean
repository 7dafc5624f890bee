import MultiPython.Heap.History

/-!
# Where the tail walks stop

`gc_nbytes`, `gc_free` and `gc_mark_subtree` look for the end of a chunk by
reading entries until one is not a tail. Behind a chunk that ends with the
pool the next entry is not part of the table, and it is read all the same: the
walks stay in the table for exactly the chunks that end earlier,
`tailWalks_exact_iff`. Contrast `gc_realloc`, whose loop is bounded by
`max_block`.
-/

namespace MultiPython.Heap

open Logic List Option

variable {config : Config}

/-- The entries that the loop of `gc_free` writes. It reads the entry behind each. -/
def gcFreeWrites : Nat → MpStateMem → Nat → List Nat
  | 0, _, _ => []
  | fuel + 1, state, block =>
    let freed := state.atbAnyToFree block
    block :: if freed.atbGetKind (block + 1) = .tail then
      gcFreeWrites fuel freed (block + 1)
    else
      []

/-- The walks over the chunk that `ptr` points at end with its `length` blocks, and
touch no entry that is not in the table. -/
structure WalksExact (config : Config) (state : MpStateMem) (ptr length : Nat) : Prop where
  /-- The result of `gc_nbytes`. -/
  nbytes : gcNbytes config ptr state = length * config.bytesPerBlock
  /-- The number of blocks that `gc_mark_subtree` scans. -/
  marked : state.chainLength config (state.blockFromPtr config ptr) = length
  /-- The entries that both of them read. -/
  reads : ∀ entry ∈ state.chainReads config (state.blockFromPtr config ptr), entry < state.blocks
  /-- The entries that `gc_free` changes. -/
  freed : ∀ entry < state.blocks,
    (gcFree config ptr state).atbGetKind entry ≠ state.atbGetKind entry →
      state.blockFromPtr config ptr ≤ entry ∧ entry < state.blockFromPtr config ptr + length
  /-- The entries that `gc_free` writes, and the ones behind them that it reads. -/
  writes : ∀ entry ∈ gcFreeWrites config.wordSpace state (state.blockFromPtr config ptr),
    entry < state.blocks ∧ entry + 1 < state.blocks

theorem tailWalk_eq_range (state : MpStateMem) (fuel entry : Nat) :
    state.tailWalk fuel entry = List.range' entry (state.tailWalk fuel entry).length := by
  induction fuel generalizing entry with
  | zero => rfl
  | succ fuel ih =>
    rw [MpStateMem.tailWalk]
    split
    · rw [length_cons, range'_succ, ← ih]
    · rfl

theorem mem_gcFreeWrites (fuel : Nat) (state : MpStateMem) (block entry : Nat) :
    entry ∈ gcFreeWrites fuel state block ↔
      block ≤ entry ∧ entry < block + fuel ∧ TailsUpTo state block entry := by
  induction fuel generalizing state block with
  | zero =>
    simp only [gcFreeWrites, not_mem_nil, false_iff]
    omega
  | succ fuel ih =>
    have next : (state.atbAnyToFree block).atbGetKind (block + 1) = state.atbGetKind (block + 1) := by
      rw [state.kind_anyToFree, if_neg (by omega)]
    simp only [gcFreeWrites, next]
    by_cases isTail : state.atbGetKind (block + 1) = .tail
    · simp only [isTail, if_true, mem_cons, ih]
      constructor
      · rintro (rfl | ⟨above, below, later⟩)
        · exact ⟨le_rfl, by omega, fun other low high => absurd low (by omega)⟩
        · exact ⟨by omega, by omega, (tailsUpTo_anyToFree isTail).mp later⟩
      · rintro ⟨above, below, all⟩
        by_cases first : entry = block
        · exact Or.inl first
        · exact Or.inr ⟨by omega, by omega, (tailsUpTo_anyToFree isTail).mpr all⟩
    · simp only [isTail, if_false, mem_singleton]
      exact (tailsUpTo_single isTail).symm

/-- The walks over a chunk stay in the table exactly if it ends before the pool does. -/
theorem walksExact_iff {state : MpStateMem} (invariant : HeapInvariant config state)
    {block length : Nat} (chunk : Chunk state block length) :
    WalksExact config state (state.ptrFromBlock config block) length ↔
      block + length < state.blocks := by
  have within := chunk.inside
  have positive := chunk.positive
  have few := invariant.valid.blocks_lt
  have reads : state.chainReads config block =
      List.range' (block + 1) (state.chainLength config block) :=
    tailWalk_eq_range state config.wordSpace (block + 1)
  constructor
  · -- The last block of the chunk is covered, so the entry behind it is read.
    intro exactly
    have covered : length - 1 < state.chainLength config block :=
      (lt_chainLength_cases invariant.valid).mpr
        (Or.inl (chunk.inChunk_iff.mpr ⟨by omega, by omega⟩))
    apply exactly.reads
    rw [MpStateMem.blockFromPtr_ptrFromBlock, reads]
    exact mem_range'_1.mpr (by omega)
  · intro early
    -- The entry behind the chunk is in the table and is not a tail.
    have ends : ∀ entry, block ≤ entry → TailsUpTo state block entry → entry < block + length := by
      intro entry above tails
      by_contra beyond
      exact chunk.ended early (tails (block + length) (by omega) (by omega))
    have measured : state.chainLength config block = length := by
      have bounds : ∀ offset, offset < state.chainLength config block ↔ offset < length := by
        intro offset
        rw [lt_chainLength_iff]
        constructor
        · rintro ⟨_, tails⟩
          have := ends (block + offset) (by omega) tails
          omega
        · intro below
          exact ⟨by omega, fun other low high => chunk.tails other low (by omega)⟩
      have low := bounds length
      have high := bounds (state.chainLength config block)
      omega
    have verified : state.verifyPtr config (state.ptrFromBlock config block) = true :=
      (MpStateMem.verifyPtr_iff invariant.valid).mpr ⟨block, by omega, rfl⟩
    have freed := gcFree_retabled invariant.valid invariant.unlocked chunk
      (ptrFromBlock_ne_zero invariant.valid (by omega))
    refine ⟨?_, ?_, ?_, ?_, ?_⟩
    · simp [gcNbytes, verified, chunk.head, measured]
    · rw [MpStateMem.blockFromPtr_ptrFromBlock, measured]
    · intro entry member
      rw [MpStateMem.blockFromPtr_ptrFromBlock, reads, measured] at member
      have := mem_range'_1.mp member
      omega
    · intro entry inside changed
      rw [MpStateMem.blockFromPtr_ptrFromBlock]
      rw [freed.kinds entry inside, freedKind] at changed
      by_contra outside
      simp [outside] at changed
    · intro entry member
      rw [MpStateMem.blockFromPtr_ptrFromBlock] at member
      obtain ⟨above, _, tails⟩ := (mem_gcFreeWrites _ _ _ _).mp member
      have := ends entry above tails
      omega

/-- In every history of every heap, and whatever the bytes behind the allocation table
are by then, the walks over a chunk just allocated are exact if and only if it does
not end with the last block of the pool. -/
theorem tailWalks_exact_iff (config : Config) (memory : Memory) {start stop : Nat}
    (ordered : start ≤ alignDown config stop) (bounded : stop < config.wordSpace)
    {run : List (HeapOp × System)}
    (runs : Run (System.Step config) (System.initial config memory start stop) run)
    {system : System} (reached : system ∈ visited (System.initial config memory start stop) run)
    (roots : Roots) {nBytes : Nat} (size : nBytes < config.wordSpace) (hasFinaliser : Bool)
    {heap : MpStateMem} {ptr : Nat}
    (allocated : gcAlloc config roots nBytes hasFinaliser system.heap = some (heap, ptr))
    (notNull : ptr ≠ 0) (bytes : Memory)
    (sameTable : ∀ address, heap.layout.allocTableStart ≤ address →
      address < heap.layout.allocTableStart + heap.layout.allocTableByteLen →
        bytes address = heap.memory address) :
    WalksExact config { heap with memory := bytes } ptr (blocksFor config nBytes) ↔
      heap.blockFromPtr config ptr + blocksFor config nBytes < heap.blocks := by
  have invariant := history_invariant memory ordered bounded runs system reached
  obtain ⟨final, out, allocRun, maybe, outcome⟩ := gcAlloc_spec invariant roots size hasFinaliser
  obtain ⟨rfl, rfl⟩ : final = heap ∧ out = ptr := by
    simpa using some.inj (allocRun.symm.trans allocated)
  rcases outcome with ⟨null, _⟩ | ⟨block, rfl, _, granted⟩
  · exact absurd null notNull
  · have sameLayout : final.layout = system.heap.layout :=
      granted.layout.trans (maybe.spec invariant).2.1.layout
    have address : system.heap.ptrFromBlock config block = final.ptrFromBlock config block := by
      simp only [MpStateMem.ptrFromBlock, sameLayout]
    have same : SameTable final { final with memory := bytes } := ⟨rfl, rfl, rfl, sameTable⟩
    rw [address, MpStateMem.blockFromPtr_ptrFromBlock]
    exact walksExact_iff (granted.invariant.sameTable same) (same.chunk granted.chunk)

theorem tailWalks_first_block :
    ∃ heap, gcAlloc smallConfig ⟨[], []⟩ 16 false smallSystem.heap = some (heap, 16) ∧
      (WalksExact smallConfig { heap with memory := heap.memory } 16 (blocksFor smallConfig 16) ↔
        heap.blockFromPtr smallConfig 16 + blocksFor smallConfig 16 < heap.blocks) := by
  have address : (gcAlloc smallConfig ⟨[], []⟩ 16 false smallSystem.heap).map Prod.snd =
      some 16 := by decide
  obtain ⟨⟨heap, ptr⟩, run, rfl⟩ := map_eq_some_iff.mp address
  exact ⟨heap, run, tailWalks_exact_iff smallConfig (fun _ => 0#8) (by decide) (by decide) .nil
    mem_cons_self ⟨[], []⟩ (by decide) false run (by decide) heap.memory fun _ _ _ => rfl⟩

/-- Blocks 0 and 1 are taken, the second with a finaliser, and 32 bytes fill the rest of
the pool. The finaliser flag reads as a tail, and `gc_nbytes` returns 48. -/
theorem gcNbytes_counts_finaliser_flag :
    ∃ run system heap, Run (System.Step smallConfig) smallSystem run ∧
      system ∈ visited smallSystem run ∧
      run.map Prod.fst = [.gcAlloc ⟨[], []⟩ 16 false, .gcAlloc ⟨[], []⟩ 16 true] ∧
      gcAlloc smallConfig ⟨[], []⟩ 32 false system.heap = some (heap, 48) ∧
      gcNbytes smallConfig 48 heap = 48 ∧
      ¬ WalksExact smallConfig heap 48 (blocksFor smallConfig 32) := by
  have size : 16 < smallConfig.wordSpace := by decide
  have third : (((smallSystem.apply smallConfig (.gcAlloc ⟨[], []⟩ 16 false)).bind
      (·.apply smallConfig (.gcAlloc ⟨[], []⟩ 16 true))).bind
      (fun system => gcAlloc smallConfig ⟨[], []⟩ 32 false system.heap)).map
        (fun result => (result.2, gcNbytes smallConfig 48 result.1)) = some (48, 48) := by
    decide
  obtain ⟨⟨heap, ptr⟩, toHeap, seen⟩ := map_eq_some_iff.mp third
  obtain ⟨two, toTwo, allocated⟩ := bind_eq_some_iff.mp toHeap
  obtain ⟨one, toOne, fromOne⟩ := bind_eq_some_iff.mp toTwo
  simp only [Prod.mk.injEq] at seen
  obtain ⟨rfl, nbytes⟩ := seen
  refine ⟨[(.gcAlloc ⟨[], []⟩ 16 false, one), (.gcAlloc ⟨[], []⟩ 16 true, two)], two, heap,
    .cons ⟨size, toOne⟩ (.cons ⟨size, fromOne⟩ .nil), by simp [visited], rfl, allocated, nbytes, fun exactly => ?_⟩
  have expected := exactly.nbytes
  rw [nbytes] at expected
  exact absurd expected (by decide)

end MultiPython.Heap
