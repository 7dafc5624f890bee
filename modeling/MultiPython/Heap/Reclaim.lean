import MultiPython.Heap.Chunk

/-!
# What a collection reclaims

`Reachable` is the purpose of the mark phase in its own terms: the heads that
the root pointers lead to through words inside chunks. `Collected` is what a
collection is for: the reachable chunks stay as they are and all other blocks
become free. The collector's own walk may run past the end of the table, and
then also follows words behind the pool; `gcCollect_collected_iff` says that this
is the only way in which a collection falls short.
-/

namespace MultiPython.Heap

open List Option

variable {config : Config}

/-- Some word of the block at `entry` is a verified pointer to the block `child`. -/
def PointsTo (config : Config) (state : MpStateMem) (entry child : Nat) : Prop :=
  ∃ index < config.wordsPerBlock,
    state.wordBlock config
      (state.loadWord config (state.ptrFromBlock config entry + index * config.bytesPerWord)) =
        some child

/-- The heads that the root pointers lead to through words inside chunks. -/
inductive Reachable (config : Config) (state : MpStateMem) (ptrs : List Nat) : Nat → Prop where
  | root {ptr block} (listed : ptr ∈ ptrs) (points : state.wordBlock config ptr = some block)
      (isHead : state.atbGetKind block = .head) : Reachable config state ptrs block
  | word {block entry child} (prior : Reachable config state ptrs block)
      (chunk : InChunk state block entry) (points : PointsTo config state entry child)
      (isHead : state.atbGetKind child = .head) : Reachable config state ptrs child

/-- The outcome of a collection that keeps exactly the reachable chunks. -/
structure Collected (config : Config) (state : MpStateMem) (ptrs : List Nat) (final : MpStateMem) :
    Prop where
  /-- The heads that stay allocated are the reachable ones. -/
  heads : ∀ block < state.blocks,
    final.atbGetKind block = .head ↔ Reachable config state ptrs block
  /-- Every block of a survivor keeps its entry. -/
  survivors : ∀ block entry, Reachable config state ptrs block → InChunk state block entry →
    final.atbGetKind entry = state.atbGetKind entry
  /-- Every block of any other chunk is free. -/
  reclaimed : ∀ block entry, state.atbGetKind block = .head → ¬ Reachable config state ptrs block →
    InChunk state block entry → final.atbGetKind entry = .free
  /-- Free blocks stay free. -/
  untouched : ∀ block < state.blocks, state.atbGetKind block = .free →
    final.atbGetKind block = .free
  /-- No mark is left. -/
  unmarked : ∀ block < state.blocks, final.atbGetKind block ≠ .mark
  /-- The contents of the pool are as before. -/
  contents : ∀ address, state.layout.poolStart ≤ address → address < state.layout.poolEnd →
    final.memory address = state.memory address

/-- Where the walk of a reachable chunk runs past the end of the table, the words
it then covers behind the pool lead to reachable heads only. -/
def OverrunHarmless (config : Config) (state : MpStateMem) (ptrs : List Nat) : Prop :=
  ∀ block entry child, Reachable config state ptrs block → Overrun config state block entry →
    PointsTo config state entry child → state.atbGetKind child = .head →
      Reachable config state ptrs child

/-! ## The traced blocks and the reachable ones -/

variable {state : MpStateMem} {ptrs : List Nat} {block : Nat}

theorem Reachable.mem_heads (valid : state.layout.Valid config)
    (reachable : Reachable config state ptrs block) : block ∈ state.heads := by
  cases reachable with
  | root _ points isHead => exact MpStateMem.mem_heads.mpr ⟨MpStateMem.wordBlock_lt valid points, isHead⟩
  | word _ _ points isHead =>
    obtain ⟨_, _, points⟩ := points
    exact MpStateMem.mem_heads.mpr ⟨MpStateMem.wordBlock_lt valid points, isHead⟩

theorem mem_children_iff {block child : Nat} :
    child ∈ state.children config block ↔
      ∃ offset < state.chainLength config block, PointsTo config state (block + offset) child := by
  have words : ∀ count, count * config.bytesPerBlock / config.bytesPerWord = count * 4 := by
    intro count
    rw [Config.bytesPerBlock, ← Nat.mul_assoc]
    exact Nat.mul_div_cancel _ config.bytesPerWord_pos
  -- Word `index` of the chain is word `index % 4` of block `index / 4` of it.
  have place : ∀ offset index, state.ptrFromBlock config (block + offset) +
      index * config.bytesPerWord =
        state.ptrFromBlock config block + (4 * offset + index) * config.bytesPerWord := by
    intro offset index
    simp only [MpStateMem.ptrFromBlock, Config.bytesPerBlock]
    ring
  simp only [MpStateMem.children, MpStateMem.chainWordAddresses, words, mem_filterMap,
    List.mem_map, mem_range, PointsTo, Config.wordsPerBlock_eq]
  constructor
  · rintro ⟨_, ⟨index, below, rfl⟩, points⟩
    refine ⟨index / 4, by omega, index % 4, by omega, ?_⟩
    rw [place, Nat.div_add_mod]
    exact points
  · rintro ⟨offset, below, index, small, points⟩
    rw [place] at points
    exact ⟨_, ⟨4 * offset + index, by omega, rfl⟩, points⟩

theorem Reachable.traced (valid : state.layout.Valid config)
    (reachable : Reachable config state ptrs block) : Traced config state ptrs block := by
  induction reachable with
  | @root ptr block listed points isHead =>
    refine .root ?_ (MpStateMem.mem_heads.mpr ⟨MpStateMem.wordBlock_lt valid points, isHead⟩)
    exact mem_flatMap.mpr ⟨ptr, listed, by simp [points]⟩
  | @word block entry child prior chunk points isHead ih =>
    have reached : Reachable config state ptrs child := .word prior chunk points isHead
    refine .step ih ?_ (reached.mem_heads valid)
    obtain ⟨offset, rfl⟩ := Nat.exists_eq_add_of_le chunk.above
    exact mem_children_iff.mpr ⟨offset, (lt_chainLength_cases valid).mpr (Or.inl chunk), points⟩

/-- Tracing finds nothing else exactly when every overrun is harmless. -/
theorem traced_reachable_iff (valid : state.layout.Valid config) (ptrs : List Nat) :
    (∀ block, Traced config state ptrs block → Reachable config state ptrs block) ↔
      OverrunHarmless config state ptrs := by
  constructor
  · intro complete block entry child reachable beyond points isHead
    obtain ⟨_, _, target⟩ := id points
    apply complete
    refine .step (reachable.traced valid) ?_
      (MpStateMem.mem_heads.mpr ⟨MpStateMem.wordBlock_lt valid target, isHead⟩)
    have inside := (MpStateMem.mem_heads.mp (reachable.mem_heads valid)).1
    have behind := beyond.behind
    obtain ⟨offset, rfl⟩ := Nat.exists_eq_add_of_le (show block ≤ entry by omega)
    exact mem_children_iff.mpr ⟨offset, (lt_chainLength_cases valid).mpr (Or.inr beyond), points⟩
  · intro harmless block traced
    induction traced with
    | root listed member =>
      obtain ⟨ptr, ptrListed, points⟩ := mem_flatMap.mp listed
      exact .root ptrListed (mem_toList.mp points) (MpStateMem.mem_heads.mp member).2
    | step prior edge member ih =>
      have isHead := (MpStateMem.mem_heads.mp member).2
      obtain ⟨offset, below, points⟩ := mem_children_iff.mp edge
      rcases (lt_chainLength_cases valid).mp below with chunk | beyond
      · exact .word ih chunk points isHead
      · exact harmless _ _ _ ih beyond points isHead

/-- A heap that keeps the traced chunks and nothing else is collected exactly when
nothing but the reachable chunks was traced. -/
theorem collected_iff {state final : MpStateMem} (valid : state.layout.Valid config)
    (unmarked : ∀ block < state.blocks, state.atbGetKind block ≠ .mark)
    (pool : SamePool state final)
    (kinds : ∀ block < state.blocks, CollectedKind (Traced config state ptrs) state.atbGetKind block
      (final.atbGetKind block)) :
    Collected config state ptrs final ↔
      ∀ block, Traced config state ptrs block → Reachable config state ptrs block := by
  constructor
  · intro collected block traced
    obtain ⟨inside, isHead⟩ := MpStateMem.mem_heads.mp (Logic.Marking.Reach.member traced)
    apply (collected.heads block inside).mp
    rw [← isHead]
    apply (kinds block inside).1
    rwa [owner_of_ne_tail (by simp [isHead])]
  · intro complete
    have exactly : ∀ block, Traced config state ptrs block ↔ Reachable config state ptrs block :=
      fun block => ⟨complete block, fun reachable => reachable.traced valid⟩
    have kinds' : ∀ block < state.blocks,
        CollectedKind (Reachable config state ptrs) state.atbGetKind block
          (final.atbGetKind block) := by
      intro block inside
      rw [← funext fun other => propext (exactly other)]
      exact kinds block inside
    refine ⟨?_, ?_, ?_, ?_, ?_, fun address above _ => pool.memory address above⟩
    · intro block inside
      obtain ⟨kept, lost⟩ := kinds' block inside
      cases kind : state.atbGetKind block with
      | head =>
        rw [owner_of_ne_tail (by simp [kind])] at kept lost
        exact ⟨fun now => by_contra fun missed => by simp [lost missed] at now,
          fun reachable => (kept reachable).trans kind⟩
      | free | tail | mark =>
        refine ⟨fun now => ?_, fun reachable => ?_⟩
        · by_cases reachable : Reachable config state ptrs (owner state.atbGetKind block)
          · simp [kept reachable, kind] at now
          · simp [lost reachable] at now
        · have isHead := (MpStateMem.mem_heads.mp (reachable.mem_heads valid)).2
          simp [kind] at isHead
    · intro block entry reachable chunk
      have isHead := (MpStateMem.mem_heads.mp (reachable.mem_heads valid)).2
      apply (kinds' entry chunk.inside).1
      rwa [chunk.owner_eq (by simp [isHead])]
    · intro block entry isHead missed chunk
      apply (kinds' entry chunk.inside).2
      rwa [chunk.owner_eq (by simp [isHead])]
    · intro block inside isFree
      by_cases reachable : Reachable config state ptrs (owner state.atbGetKind block)
      · rw [(kinds' block inside).1 reachable, isFree]
      · exact (kinds' block inside).2 reachable
    · intro block inside
      by_cases reachable : Reachable config state ptrs (owner state.atbGetKind block)
      · rw [(kinds' block inside).1 reachable]
        exact unmarked block inside
      · simp [(kinds' block inside).2 reachable]

/-- A collection always ends, for every mark stack and every set of roots, and it
keeps exactly the reachable chunks if and only if every overrun is harmless. -/
theorem gcCollect_collected_iff (config : Config) (state : MpStateMem)
    (wellFormed : WellFormed config state) (stateRoots : List Nat) (areas : List (List Nat)) :
    ∃ final, gcCollect config stateRoots areas state = some final ∧
      (Collected config state (stateRoots ++ areas.flatten) final ↔
        OverrunHarmless config state (stateRoots ++ areas.flatten)) := by
  obtain ⟨valid, attached, unmarked⟩ := wellFormed
  obtain ⟨final, run, pool, _, kinds⟩ :=
    gcCollect_collects valid attached unmarked stateRoots areas
  refine ⟨final, run, ?_⟩
  rw [collected_iff valid unmarked pool kinds]
  exact traced_reachable_iff valid _

/-- A heap of four blocks with one-block chunks at 0, 1 and 3. The finaliser flag of
block 1 reads as a tail behind block 3, and the word behind the pool holds the
address of block 0. -/
def overrunHeap : MpStateMem :=
  { memory := fun address =>
      match address with
      | 14 => 0x45#8
      | 15 => 0x02#8
      | 80 => 16#8
      | _ => 0#8
    layout := gcInitLayout smallConfig 14 80
    gcStackOverflow := false
    gcLockDepth := 0
    gcAutoCollectEnabled := true
    gcAllocAmount := 0
    gcAllocThreshold := smallConfig.wordSpace - 1
    gcLastFreeAtbIndex := 0
    finalised := [] }

theorem overrunHeap_wellFormed : WellFormed smallConfig overrunHeap where
  valid := by constructor <;> decide
  attached := by
    unfold TailsAttached
    decide
  unmarked := by decide

theorem gcCollect_overrunHeap_ends :
    WellFormed smallConfig overrunHeap ∧
      ∃ final, gcCollect smallConfig [64] [] overrunHeap = some final ∧
        (Collected smallConfig overrunHeap [64] final ↔
          OverrunHarmless smallConfig overrunHeap [64]) :=
  ⟨overrunHeap_wellFormed,
    gcCollect_collected_iff smallConfig overrunHeap overrunHeap_wellFormed [64] []⟩

theorem overrunHeap_reachable (reachable : Reachable smallConfig overrunHeap [64] block) :
    block = 3 := by
  induction reachable with
  | @root ptr block listed points _ =>
    obtain rfl : ptr = 64 := mem_singleton.mp listed
    have target : overrunHeap.wordBlock smallConfig 64 = some 3 := by decide
    exact some.inj (points.symm.trans target)
  | @word block entry child _ chunk points _ ih =>
    subst ih
    have last : entry < 4 := chunk.inside
    obtain rfl : entry = 3 := by
      have := chunk.above
      omega
    obtain ⟨index, below, target⟩ := points
    have empty : ∀ index < 4, overrunHeap.wordBlock smallConfig (overrunHeap.loadWord smallConfig
        (overrunHeap.ptrFromBlock smallConfig 3 + index * smallConfig.bytesPerWord)) = none := by
      decide
    rw [empty index below] at target
    cases target

/-- The collection of that heap keeps block 0, which no root leads to. -/
theorem gcCollect_overrunHeap_keeps_garbage :
    WellFormed smallConfig overrunHeap ∧
      ∃ final, gcCollect smallConfig [64] [] overrunHeap = some final ∧
        ¬ Collected smallConfig overrunHeap [64] final := by
  have kept : (gcCollect smallConfig [64] [] overrunHeap).map (fun final => final.atbGetKind 0) =
      some .head := by decide
  obtain ⟨final, run, isHead⟩ := map_eq_some_iff.mp kept
  refine ⟨overrunHeap_wellFormed, final, run, fun collected => ?_⟩
  have reachable := (collected.heads 0 (by decide)).mp isHead
  exact absurd (overrunHeap_reachable reachable) (by decide)

end MultiPython.Heap
