import MultiPython.Heap.AllocSpec

/-!
# The allocation table invariant

`HeapInvariant` is what the allocator relies on between calls. Each of the three
ways in which it changes the table (taking a run, freeing the end of a chunk,
appending tails to a chunk) keeps the invariant and every chunk it is not about;
so does a collection, for the chunks it does not reclaim.
-/

namespace MultiPython.Heap

variable {config : Config}

/-- The state of the heap between two calls. -/
structure HeapInvariant (config : Config) (state : MpStateMem) : Prop where
  wellFormed : WellFormed config state
  hint : HintSound state
  unlocked : state.gcLockDepth = 0

namespace HeapInvariant

variable {state : MpStateMem}

theorem valid (invariant : HeapInvariant config state) : state.layout.Valid config :=
  invariant.wellFormed.valid

theorem attached (invariant : HeapInvariant config state) : TailsAttached state :=
  invariant.wellFormed.attached

end HeapInvariant

section Retabled

variable {state after : MpStateMem} (invariant : HeapInvariant config state)

include invariant

/-- To keep the invariant, the new entries have to keep tails attached, set no mark
and leave no free block before the hint. -/
theorem HeapInvariant.retabled {hint : Nat} {kinds : Nat → AtbKind}
    (retabled : Retabled state hint kinds after)
    (attached : ∀ entry < state.blocks, kinds entry = .tail → 0 < entry ∧ kinds (entry - 1) ≠ .free)
    (unmarked : ∀ entry < state.blocks, kinds entry ≠ .mark)
    (sound : ∀ entry < state.blocks, kinds entry = .free → hint * blocksPerAtb ≤ entry) :
    HeapInvariant config after where
  wellFormed :=
    { valid := retabled.layout ▸ invariant.valid
      attached := by
        intro entry inside isTail
        rw [retabled.blocks] at inside
        rw [retabled.kinds entry inside] at isTail
        rw [retabled.kinds (entry - 1) (by omega)]
        exact attached entry inside isTail
      unmarked := by
        intro entry inside
        rw [retabled.blocks] at inside
        rw [retabled.kinds entry inside]
        exact unmarked entry inside }
  hint := by
    intro entry inside isFree
    rw [retabled.blocks] at inside
    rw [retabled.kinds entry inside] at isFree
    rw [retabled.gcLastFreeAtbIndex]
    exact sound entry inside isFree
  unlocked := retabled.gcLockDepth.trans invariant.unlocked

theorem HeapInvariant.sameTable (same : SameTable state after) : HeapInvariant config after :=
  invariant.retabled ⟨same.layout, same.gcLockDepth, same.gcLastFreeAtbIndex,
    fun _ inside => same.kind inside⟩ invariant.attached invariant.wellFormed.unmarked invariant.hint

/-! ## Taking a run -/

section Take

variable {first last hint : Nat} (order : first ≤ last) (inside : last < state.blocks)
  (free : ∀ entry, first ≤ entry → entry ≤ last → state.atbGetKind entry = .free)
  (retabled : Retabled state hint (takenKind state.atbGetKind first last) after)

include order inside free retabled

omit order inside free in
/-- Taking a run keeps the invariant if the hint stays, or moves behind a run before
which no block is free. -/
theorem HeapInvariant.take
    (moved : hint = state.gcLastFreeAtbIndex ∨ hint = (last + 1) / blocksPerAtb ∧
      ∀ entry < first, state.gcLastFreeAtbIndex * blocksPerAtb ≤ entry →
        state.atbGetKind entry ≠ .free) :
    HeapInvariant config after := by
  refine invariant.retabled retabled ?_ ?_ ?_
  · intro entry below isTail
    unfold takenKind at *
    by_cases isFirst : entry = first
    · simp [isFirst] at isTail
    · simp only [isFirst, if_false] at isTail
      by_cases inRun : first < entry ∧ entry ≤ last
      · refine ⟨by omega, ?_⟩
        split
        · simp
        · rw [if_pos (by omega)]
          simp
      · rw [if_neg inRun] at isTail
        obtain ⟨positive, used⟩ := invariant.attached entry below isTail
        refine ⟨positive, ?_⟩
        split
        · simp
        · split
          · simp
          · exact used
  · intro entry below
    unfold takenKind
    split
    · simp
    · split
      · simp
      · exact invariant.wellFormed.unmarked entry below
  · intro entry below isFree
    unfold takenKind at isFree
    by_cases isFirst : entry = first
    · simp [isFirst] at isFree
    · by_cases inRun : first < entry ∧ entry ≤ last
      · simp [isFirst, inRun] at isFree
      · simp only [isFirst, if_false, inRun] at isFree
        have above := invariant.hint entry below isFree
        rcases moved with rfl | ⟨rfl, none⟩
        · exact above
        · have notBefore : ¬ entry < first := fun before => none entry before above isFree
          simp only [blocksPerAtb]
          omega

theorem take_chunk : Chunk after first (last + 1 - first) where
  positive := by omega
  inside := by
    rw [retabled.blocks]
    omega
  head := by
    rw [retabled.kinds first (by omega)]
    simp [takenKind]
  tails := by
    intro entry low high
    rw [retabled.kinds entry (by omega), takenKind, if_neg (by omega), if_pos (by omega)]
  ended := by
    intro within isTail
    rw [retabled.blocks] at within
    rw [show first + (last + 1 - first) = last + 1 by omega] at within isTail
    rw [retabled.kinds _ within, takenKind, if_neg (by omega), if_neg (by omega)] at isTail
    exact (invariant.attached _ within isTail).2 (free _ (by omega) (by omega))

omit invariant inside in
/-- Every other chunk is still there. -/
theorem take_keep {block length : Nat} (chunk : Chunk state block length) :
    Chunk after block length := by
  have within := chunk.inside
  have positive := chunk.positive
  have apart : ∀ entry, block ≤ entry → entry < block + length → ¬ (first ≤ entry ∧ entry ≤ last) :=
    fun entry low high inRun => chunk.used low high (free entry inRun.1 inRun.2)
  refine chunk.keep retabled.blocks (fun entry low high => ?_) fun more isTail => ?_
  · have outside := apart entry low high
    rw [retabled.kinds entry (by omega), takenKind, if_neg (by omega), if_neg (by omega)]
  · have outside := apart (block + length - 1) (by omega) (by omega)
    rw [retabled.kinds _ more, takenKind] at isTail
    by_cases isFirst : block + length = first
    · simp [isFirst] at isTail
    · rw [if_neg isFirst, if_neg (by omega)] at isTail
      exact chunk.ended more isTail

end Take

/-! ## Freeing the end of a chunk -/

section Free

variable {block length keep hint : Nat} (chunk : Chunk state block length) (smaller : keep < length)
  (hintLe : hint = min ((block + keep) / blocksPerAtb) state.gcLastFreeAtbIndex)
  (retabled : Retabled state hint
    (freedKind state.atbGetKind (block + keep) (block + length)) after)

include chunk smaller retabled

omit smaller in
include hintLe in
/-- Freeing the end of a chunk keeps the invariant, since the hint follows. -/
theorem HeapInvariant.free : HeapInvariant config after := by
  have within := chunk.inside
  refine invariant.retabled retabled ?_ ?_ ?_
  · intro entry below isTail
    unfold freedKind at *
    by_cases freed : block + keep ≤ entry ∧ entry < block + length
    · simp [freed] at isTail
    · rw [if_neg freed] at isTail
      obtain ⟨positive, used⟩ := invariant.attached entry below isTail
      refine ⟨positive, ?_⟩
      rw [if_neg]
      · exact used
      · -- The entry behind the chunk is not a tail.
        intro before
        obtain rfl : entry = block + length := by omega
        exact chunk.ended below isTail
  · intro entry below
    unfold freedKind
    split
    · simp
    · exact invariant.wellFormed.unmarked entry below
  · intro entry below isFree
    unfold freedKind at isFree
    simp only [blocksPerAtb] at hintLe ⊢
    by_cases freed : block + keep ≤ entry ∧ entry < block + length
    · omega
    · rw [if_neg freed] at isFree
      have above := invariant.hint entry below isFree
      simp only [blocksPerAtb] at above
      omega

omit invariant in
/-- What is left of the chunk is a chunk. -/
theorem free_chunk (positive : 0 < keep) : Chunk after block keep := by
  have within := chunk.inside
  have kinds := retabled.kinds
  unfold freedKind at kinds
  refine ⟨positive, by rw [retabled.blocks]; omega, ?_, fun entry low high => ?_, fun _ => ?_⟩
  · rw [kinds block (by omega), if_neg (by omega)]
    exact chunk.head
  · rw [kinds entry (by omega), if_neg (by omega)]
    exact chunk.tails entry low (by omega)
  · rw [kinds _ (by omega), if_pos (by omega)]
    simp

omit invariant smaller in
/-- Every other chunk is still there. -/
theorem free_keep {other size : Nat} (another : Chunk state other size) (different : other ≠ block) :
    Chunk after other size := by
  have within := chunk.inside
  have otherWithin := another.inside
  have apart := another.disjoint chunk different
  have kinds := retabled.kinds
  unfold freedKind at kinds
  refine another.keep retabled.blocks (fun entry low high => ?_) fun more => ?_
  · rw [kinds entry (by omega), if_neg (by omega)]
  · rw [kinds _ more]
    split
    · simp
    · exact another.ended more

end Free

/-! ## Appending tails to a chunk -/

section Expand

variable {block length size : Nat} (chunk : Chunk state block length) (larger : length < size)
  (inside : block + size ≤ state.blocks)
  (free : ∀ entry, block + length ≤ entry → entry < block + size → state.atbGetKind entry = .free)
  (retabled : Retabled state state.gcLastFreeAtbIndex
    (fun entry => if block + length ≤ entry ∧ entry < block + size then .tail
      else state.atbGetKind entry) after)

include chunk larger inside free retabled

omit larger inside free in
/-- Appending tails keeps the invariant. -/
theorem HeapInvariant.expand : HeapInvariant config after := by
  have positive := chunk.positive
  refine invariant.retabled retabled ?_ ?_ ?_
  · intro entry below isTail
    by_cases new : block + length ≤ entry ∧ entry < block + size
    · refine ⟨by omega, ?_⟩
      by_cases isFirst : entry = block + length
      · rw [if_neg (by omega)]
        exact chunk.used (by omega) (by omega)
      · rw [if_pos (by omega)]
        simp
    · rw [if_neg new] at isTail
      obtain ⟨low, used⟩ := invariant.attached entry below isTail
      refine ⟨low, ?_⟩
      split
      · simp
      · exact used
  · intro entry below
    split
    · simp
    · exact invariant.wellFormed.unmarked entry below
  · intro entry below isFree
    split at isFree
    · cases isFree
    · exact invariant.hint entry below isFree

theorem expand_chunk : Chunk after block size := by
  have kinds := retabled.kinds
  have positive := chunk.positive
  refine ⟨by omega, by rw [retabled.blocks]; exact inside, ?_, fun entry low high => ?_,
    fun more isTail => ?_⟩
  · rw [kinds block (by omega), if_neg (by omega)]
    exact chunk.head
  · rw [kinds entry (by omega)]
    split
    · rfl
    · exact chunk.tails entry low (by omega)
  · rw [retabled.blocks] at more
    rw [kinds _ more, if_neg (by omega)] at isTail
    exact (invariant.attached _ more isTail).2 (free _ (by omega) (by omega))

omit invariant inside in
/-- Every other chunk is still there. -/
theorem expand_keep {other count : Nat} (another : Chunk state other count)
    (different : other ≠ block) : Chunk after other count := by
  have within := another.inside
  have positive := another.positive
  have chunkPositive := chunk.positive
  have apart := another.disjoint chunk different
  have kinds := retabled.kinds
  have unfree : ∀ entry, other ≤ entry → entry < other + count →
      ¬ (block + length ≤ entry ∧ entry < block + size) :=
    fun entry low high new => another.used low high (free entry new.1 new.2)
  refine another.keep retabled.blocks (fun entry low high => ?_) fun more => ?_
  · rw [kinds entry (by omega), if_neg (unfree entry low high)]
  · have lastUsed := unfree (other + count - 1) (by omega) (by omega)
    rw [kinds _ more, if_neg (by omega)]
    exact another.ended more

end Expand

end Retabled

theorem ptrFromBlock_ne_zero {state : MpStateMem} (valid : state.layout.Valid config) {block : Nat}
    (inside : block < state.blocks) : state.ptrFromBlock config block ≠ 0 := by
  have below := valid.tableBelowPool
  have bytes : block < state.layout.allocTableByteLen * 4 := inside
  unfold MpStateMem.ptrFromBlock
  omega

/-- `gc_free` of a chunk keeps the invariant and all other chunks. -/
theorem gcFree_invariant {state : MpStateMem} (invariant : HeapInvariant config state)
    {block length : Nat} (chunk : Chunk state block length) :
    HeapInvariant config (gcFree config (state.ptrFromBlock config block) state) ∧
      ∀ other size, other ≠ block → Chunk state other size →
        Chunk (gcFree config (state.ptrFromBlock config block) state) other size := by
  have within := chunk.inside
  have positive := chunk.positive
  have freed : Retabled state (min ((block + 0) / blocksPerAtb) state.gcLastFreeAtbIndex)
      (freedKind state.atbGetKind (block + 0) (block + length))
      (gcFree config (state.ptrFromBlock config block) state) :=
    gcFree_retabled invariant.valid invariant.unlocked chunk
      (ptrFromBlock_ne_zero invariant.valid (by omega))
  exact ⟨invariant.free chunk rfl freed,
    fun other size different another => free_keep chunk freed another different⟩

/-! ## Collecting -/

/-- What a collection does to the chunks: it keeps those whose head it keeps. -/
structure Survives (before after : MpStateMem) : Prop where
  layout : after.layout = before.layout
  head : ∀ block < before.blocks, after.atbGetKind block = .head → before.atbGetKind block = .head
  keep : ∀ block length, Chunk before block length → after.atbGetKind block = .head →
    Chunk after block length

namespace Survives

variable {before after : MpStateMem}

theorem refl (state : MpStateMem) : Survives state state :=
  ⟨rfl, fun _ _ isHead => isHead, fun _ _ chunk _ => chunk⟩

theorem blocks (survives : Survives before after) : after.blocks = before.blocks :=
  congrArg Layout.blocks survives.layout

end Survives

/-- A collection ends, keeps the invariant, and keeps the chunks the root pointers
point at. -/
theorem gcCollect_invariant {state : MpStateMem} (invariant : HeapInvariant config state)
    (roots : Roots) :
    ∃ final, gcCollect config roots.state roots.areas state = some final ∧
      HeapInvariant config final ∧ Survives state final ∧
      ∀ ptr ∈ roots.all, ∀ block, state.wordBlock config ptr = some block →
        state.atbGetKind block = .head → final.atbGetKind block = .head := by
  have valid := invariant.valid
  have unmarked := invariant.wellFormed.unmarked
  obtain ⟨final, run, pool, hint, kinds⟩ :=
    gcCollect_collects valid invariant.attached unmarked roots.state roots.areas
  have cases_ : ∀ block < state.blocks, final.atbGetKind block = state.atbGetKind block ∨
      final.atbGetKind block = .free := by
    intro block inside
    by_cases traced : Traced config state roots.all (owner state.atbGetKind block)
    · exact Or.inl ((kinds block inside).1 traced)
    · exact Or.inr ((kinds block inside).2 traced)
  refine ⟨final, run, ⟨⟨pool.layout ▸ valid, ?_, ?_⟩, ?_, pool.gcLockDepth.trans invariant.unlocked⟩,
    ⟨pool.layout, ?_, ?_⟩, ?_⟩
  · -- A surviving tail has the same owner as the block before it, which survives too.
    intro block inside isTail
    rw [pool.blocks] at inside
    have wasTail : state.atbGetKind block = .tail := by
      rcases cases_ block inside with same | free
      · exact same.symm.trans isTail
      · simp [free] at isTail
    obtain ⟨positive, used⟩ := invariant.attached block inside wasTail
    refine ⟨positive, ?_⟩
    obtain ⟨previous, rfl⟩ : ∃ previous, block = previous + 1 := ⟨block - 1, by omega⟩
    rw [Nat.add_sub_cancel] at used ⊢
    have traced : Traced config state roots.all (owner state.atbGetKind (previous + 1)) := by
      by_contra lost
      simp [(kinds _ inside).2 lost] at isTail
    rw [owner_of_tail wasTail] at traced
    rw [(kinds previous (by omega)).1 traced]
    exact used
  · intro block inside
    rw [pool.blocks] at inside
    rcases cases_ block inside with same | free
    · rw [same]
      exact unmarked block inside
    · simp [free]
  · intro block inside _
    rw [hint]
    omega
  · intro block inside isHead
    rcases cases_ block inside with same | free
    · exact same.symm.trans isHead
    · simp [free] at isHead
  · intro block length chunk isHead
    have within := chunk.inside
    have positive := chunk.positive
    have wasHead := chunk.head
    have traced : Traced config state roots.all block := by
      by_contra lost
      have freed := (kinds block (by omega)).2
      rw [owner_of_ne_tail (by simp [wasHead])] at freed
      simp [freed lost] at isHead
    refine chunk.keep pool.blocks (fun entry low high => ?_) fun more => ?_
    · have member := chunk.inChunk_iff.mpr ⟨low, high⟩
      apply (kinds entry member.inside).1
      rwa [member.owner_eq (by simp [wasHead])]
    · rcases cases_ _ more with same | free
      · rw [same]
        exact chunk.ended more
      · simp [free]
  · intro ptr listed block points isHead
    have inside := MpStateMem.wordBlock_lt valid points
    have traced : Traced config state roots.all block :=
      .root (List.mem_flatMap.mpr ⟨ptr, listed, by simp [points]⟩)
        (MpStateMem.mem_heads.mpr ⟨inside, isHead⟩)
    rw [← isHead]
    apply (kinds block inside).1
    rwa [owner_of_ne_tail (by simp [isHead])]

end MultiPython.Heap
