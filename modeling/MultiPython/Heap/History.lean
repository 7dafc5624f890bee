import MultiPython.Heap.Outcome

/-!
# Histories of a heap

A `System` is a heap together with the chunks its clients hold. Its steps are
the calls of the allocator and the collector, and whatever clients write behind
the allocation table in between. The heap invariant holds along every history.
That the chunks the clients hold are in the table, apart from each other and as
long as they were asked for, holds exactly as long as no `gc_realloc` is asked for
so many bytes that rounding up wraps around: `heapSound_iff`.
-/

namespace MultiPython.Heap

open Logic List Option

variable {config : Config}

/-- A call, or something that happens between two calls. -/
inductive HeapOp where
  | gcAlloc (roots : Roots) (nBytes : Nat) (hasFinaliser : Bool)
  | gcFree (ptr : Nat)
  | gcRealloc (roots : Roots) (ptr nBytes : Nat) (allowMove : Bool)
  | gcCollect (roots : Roots)
  /-- A client writes a byte. -/
  | write (address : Nat) (value : Byte)
  /-- `gc.enable()` and `gc.disable()`. -/
  | autoCollect (enabled : Bool)
  /-- `gc.threshold()`. -/
  | threshold (amount : Nat)

/-- A heap and the chunks that its clients hold, each with its first block and the
number of blocks asked for. -/
structure System where
  heap : MpStateMem
  live : List (Nat × Nat)

/-- The chunks that are left when a collection has turned `before` into `after`. -/
def surviving (before after : MpStateMem) (live : List (Nat × Nat)) : List (Nat × Nat) :=
  live.filter fun chunk =>
    !(decide (before.atbGetKind chunk.1 = .head) && decide (after.atbGetKind chunk.1 ≠ .head))

/-- The chunks held besides the one at `block`. -/
def without (block : Nat) (live : List (Nat × Nat)) : List (Nat × Nat) :=
  live.filter fun chunk => chunk.1 ≠ block

namespace System

/-- Allocate, and hold the new chunk. -/
def alloc (config : Config) (system : System) (roots : Roots) (nBytes : Nat)
    (hasFinaliser : Bool) : Option System := do
  let (heap, ptr) ← gcAlloc config roots nBytes hasFinaliser system.heap
  let live := surviving system.heap (searchedHeap config roots nBytes system.heap) system.live
  if ptr = 0 then
    some ⟨heap, live⟩
  else
    some ⟨heap, (system.heap.blockFromPtr config ptr, blocksFor config nBytes) :: live⟩

/-- Free, and no longer hold the chunk. -/
def free (config : Config) (system : System) (ptr : Nat) : System :=
  if ptr = 0 then
    ⟨gcFree config ptr system.heap, system.live⟩
  else
    ⟨gcFree config ptr system.heap, without (system.heap.blockFromPtr config ptr) system.live⟩

/-- Resize, and hold what is returned in place of the old chunk, which stays with its
client if nothing is returned. -/
def realloc (config : Config) (system : System) (roots : Roots) (ptr nBytes : Nat)
    (allowMove : Bool) : Option System := do
  let block := system.heap.blockFromPtr config ptr
  let (heap, ptrOut) ← gcRealloc config roots ptr nBytes allowMove system.heap
  let live :=
    if ptrOut = 0 then
      surviving system.heap heap system.live
    else if ptrOut = ptr then
      (block, blocksFor config nBytes) :: without block system.live
    else
      let searched := searchedHeap config (roots.holding ptr) nBytes system.heap
      (system.heap.blockFromPtr config ptrOut, blocksFor config nBytes) ::
        without block (surviving system.heap searched system.live)
  some ⟨heap, live⟩

/-- The effect of one operation. `gc_realloc` of `NULL` is an allocation and
`gc_realloc` to no bytes is a free. -/
def apply (config : Config) (system : System) : HeapOp → Option System
  | .gcAlloc roots nBytes hasFinaliser => system.alloc config roots nBytes hasFinaliser
  | .gcFree ptr => some (system.free config ptr)
  | .gcRealloc roots ptr nBytes allowMove =>
    if ptr = 0 then
      system.alloc config roots nBytes false
    else if nBytes = 0 then
      some (system.free config ptr)
    else
      system.realloc config roots ptr nBytes allowMove
  | .gcCollect roots => do
      let heap ← gcCollect config roots.state roots.areas system.heap
      some ⟨heap, surviving system.heap heap system.live⟩
  | .write address value => some { system with heap := system.heap.store address value }
  | .autoCollect enabled =>
    some { system with heap := { system.heap with gcAutoCollectEnabled := enabled } }
  | .threshold amount =>
    some { system with heap := { system.heap with gcAllocThreshold := amount } }

/-- A client holds the chunk that the pointer points at, and the assertion of `gc_free`
and `gc_realloc` that it is a head holds. -/
def Holds (config : Config) (system : System) (ptr : Nat) : Prop :=
  ∃ chunk ∈ system.live, ptr = system.heap.ptrFromBlock config chunk.1 ∧
    chunk.1 < system.heap.blocks ∧ system.heap.atbGetKind chunk.1 = .head

/-- What callers promise: sizes are of type `size_t`, only chunks that are held are
freed or resized, and nobody else writes to the allocation table. -/
def Allowed (config : Config) (system : System) : HeapOp → Prop
  | .gcAlloc _ nBytes _ => nBytes < config.wordSpace
  | .gcFree ptr => ptr = 0 ∨ system.Holds config ptr
  | .gcRealloc _ ptr nBytes _ => nBytes < config.wordSpace ∧ (ptr = 0 ∨ system.Holds config ptr)
  | .gcCollect _ => True
  | .write address _ =>
    address < system.heap.layout.allocTableStart ∨
      system.heap.layout.allocTableStart + system.heap.layout.allocTableByteLen ≤ address
  | .autoCollect _ => True
  | .threshold _ => True

/-- One step of a history. -/
def Step (config : Config) (system : System) (op : HeapOp) (next : System) : Prop :=
  system.Allowed config op ∧ system.apply config op = some next

end System

/-- The size that `gc_realloc` is asked for rounds up to whole blocks. -/
def HeapOp.RoundsUp (config : Config) : HeapOp → Prop
  | .gcRealloc _ ptr nBytes _ => ptr = 0 ∨ Heap.RoundsUp config nBytes
  | _ => True

/-- What `gc_alloc` promises in a given state. -/
def AllocContract (config : Config) (heap : MpStateMem) : Prop :=
  ∀ (roots : Roots) (nBytes : Nat) (hasFinaliser : Bool), nBytes < config.wordSpace →
    ∃ final ptr, gcAlloc config roots nBytes hasFinaliser heap = some (final, ptr) ∧
      (ptr ≠ 0 → ∃ searched block, MaybeCollected config roots heap searched ∧
        ptr = heap.ptrFromBlock config block ∧
        (∀ entry, block ≤ entry → entry < block + blocksFor config nBytes →
          searched.atbGetKind entry = .free) ∧
        Chunk final block (blocksFor config nBytes)) ∧
      (ptr = 0 → ¬ HasFreeRun final (blocksFor config nBytes) ∧
        (heap.gcAutoCollectEnabled = true → 0 < nBytes → RoundsUp config nBytes →
          gcCollect config roots.state roots.areas heap = some final))

/-- What is expected of every state of a history. -/
structure HeapSound (config : Config) (system : System) : Prop where
  /-- Every tail directly follows a head or a tail. -/
  tails : ∀ block < system.heap.blocks, system.heap.atbGetKind block = .tail → 0 < block ∧
    (system.heap.atbGetKind (block - 1) = .head ∨ system.heap.atbGetKind (block - 1) = .tail)
  /-- No free block lies before the hint. -/
  hint : ∀ block, block < system.heap.gcLastFreeAtbIndex * blocksPerAtb →
    block < system.heap.blocks → system.heap.atbGetKind block ≠ .free
  /-- The chunks that clients hold are chunks of the table, inside the pool. -/
  chunks : ∀ chunk ∈ system.live, Chunk system.heap chunk.1 chunk.2
  /-- They have no block in common. -/
  disjoint : system.live.Pairwise fun first second =>
    first.1 + first.2 ≤ second.1 ∨ second.1 + second.2 ≤ first.1
  /-- Allocation does what it is for. -/
  alloc : AllocContract config system.heap

/-! ## The chunks that are held -/

/-- The chunks that are held are chunks of the table, with different heads. -/
structure LiveSound (heap : MpStateMem) (live : List (Nat × Nat)) : Prop where
  chunks : ∀ chunk ∈ live, Chunk heap chunk.1 chunk.2
  distinct : live.Pairwise fun first second => first.1 ≠ second.1

namespace LiveSound

variable {heap after : MpStateMem} {live : List (Nat × Nat)}

section

variable (sound : LiveSound heap live)

include sound

theorem filter (held : Nat × Nat → Bool)
    (keep : ∀ chunk ∈ live, held chunk = true → Chunk after chunk.1 chunk.2) :
    LiveSound after (live.filter held) where
  chunks := fun chunk member =>
    keep chunk (mem_filter.mp member).1 (mem_filter.mp member).2
  distinct := sound.distinct.filter held

theorem keep (keep : ∀ chunk ∈ live, Chunk after chunk.1 chunk.2) : LiveSound after live :=
  ⟨keep, sound.distinct⟩

theorem cons {block length : Nat} (chunk : Chunk heap block length)
    (fresh : ∀ other ∈ live, other.1 ≠ block) : LiveSound heap ((block, length) :: live) where
  chunks := by
    intro other member
    rcases mem_cons.mp member with rfl | member
    · exact chunk
    · exact sound.chunks other member
  distinct := pairwise_cons.mpr ⟨fun other member => (fresh other member).symm, sound.distinct⟩

theorem surviving (survives : Survives heap after) :
    LiveSound after (surviving heap after live) := by
  refine sound.filter _ fun chunk member held => ?_
  have here := sound.chunks chunk member
  refine survives.keep chunk.1 chunk.2 here ?_
  simpa [here.head] using held

theorem disjoint :
    live.Pairwise fun first second =>
      first.1 + first.2 ≤ second.1 ∨ second.1 + second.2 ≤ first.1 := by
  refine sound.distinct.imp_of_mem fun {first second} firstHeld secondHeld different => ?_
  exact (sound.chunks first firstHeld).disjoint (sound.chunks second secondHeld) different

end

end LiveSound

/-- In a heap that satisfies the invariant all is as expected exactly when the chunks
that are held are sound. -/
theorem heapSound_iff_liveSound {system : System} (invariant : HeapInvariant config system.heap) :
    HeapSound config system ↔ LiveSound system.heap system.live := by
  constructor
  · intro sound
    refine ⟨sound.chunks, sound.disjoint.imp_of_mem fun {first second} held _ apart same => ?_⟩
    have firstPositive := (sound.chunks first held).positive
    have secondPositive := (sound.chunks second ‹_›).positive
    omega
  · intro live
    refine ⟨fun block inside isTail => ?_, fun block below inside isFree => ?_, live.chunks,
      live.disjoint, fun roots nBytes hasFinaliser size => ?_⟩
    · obtain ⟨positive, used⟩ := invariant.attached block inside isTail
      have unmarked := invariant.wellFormed.unmarked (block - 1) (by omega)
      refine ⟨positive, ?_⟩
      cases kind : system.heap.atbGetKind (block - 1) with
      | free => exact absurd kind used
      | mark => exact absurd kind unmarked
      | head => exact Or.inl rfl
      | tail => exact Or.inr rfl
    · have above := invariant.hint block inside isFree
      omega
    · obtain ⟨final, ptr, run, maybe, outcome⟩ := gcAlloc_spec invariant roots size hasFinaliser
      refine ⟨final, ptr, run, fun some_ => ?_, fun null => ?_⟩
      · rcases outcome with ⟨null, _⟩ | ⟨block, address, _, granted⟩
        · exact absurd null some_
        · exact ⟨_, block, maybe, address, granted.free, granted.chunk⟩
      · rcases outcome with ⟨_, refused⟩ | ⟨block, _, notNull, _⟩
        · rw [refused.same]
          exact ⟨refused.none, refused.collected⟩
        · exact absurd null notNull

/-! ## Steps -/

section Steps

variable {system : System} (invariant : HeapInvariant config system.heap)

include invariant

theorem System.alloc_step (roots : Roots) {nBytes : Nat} (size : nBytes < config.wordSpace)
    (hasFinaliser : Bool) :
    ∃ next, system.alloc config roots nBytes hasFinaliser = some next ∧
      HeapInvariant config next.heap ∧
      (LiveSound system.heap system.live → LiveSound next.heap next.live) := by
  obtain ⟨final, ptr, run, maybe, outcome⟩ := gcAlloc_spec invariant roots size hasFinaliser
  obtain ⟨searchedInvariant, survives, _⟩ := maybe.spec invariant
  unfold System.alloc
  generalize searchedHeap config roots nBytes system.heap = searched at *
  rcases outcome with ⟨rfl, refused⟩ | ⟨block, rfl, notNull, granted⟩
  · obtain rfl := refused.same
    exact ⟨_, by simp [run]; rfl, searchedInvariant, fun sound => sound.surviving survives⟩
  · refine ⟨_, by simp [run, notNull]; rfl, granted.invariant, fun sound => ?_⟩
    have kept := sound.surviving survives
    refine (kept.keep fun chunk member => ?_).cons granted.chunk fun other member => ?_
    · exact granted.keep _ _ (kept.chunks chunk member)
    · rintro rfl
      have isFree := granted.free other.1 le_rfl (Nat.lt_add_of_pos_right granted.chunk.positive)
      simp [(kept.chunks other member).head] at isFree

theorem System.free_step {ptr : Nat} (held : ptr = 0 ∨ system.Holds config ptr) :
    HeapInvariant config (system.free config ptr).heap ∧
      (LiveSound system.heap system.live →
        LiveSound (system.free config ptr).heap (system.free config ptr).live) := by
  unfold System.free
  rcases held with rfl | ⟨chunk, member, rfl, inside, isHead⟩
  · have same : gcFree config 0 system.heap = system.heap := by simp [gcFree]
    simp only [same, if_true]
    exact ⟨invariant, id⟩
  · have notNull := ptrFromBlock_ne_zero invariant.valid inside
    obtain ⟨length, here⟩ := exists_chunk inside isHead
    obtain ⟨final, kept⟩ := gcFree_invariant invariant here
    simp only [notNull, if_false, MpStateMem.blockFromPtr_ptrFromBlock]
    refine ⟨final, fun sound => sound.filter _ fun other held different => ?_⟩
    exact kept _ _ (by simpa using different) (sound.chunks other held)

/-- A resize keeps the invariant, and keeps the chunks that are held sound exactly if
the size rounds up. -/
theorem System.realloc_step (roots : Roots) {ptr nBytes : Nat} (allowMove : Bool)
    (size : nBytes < config.wordSpace) (some_ : nBytes ≠ 0) (held : system.Holds config ptr) :
    ∃ next, system.realloc config roots ptr nBytes allowMove = some next ∧
      HeapInvariant config next.heap ∧
      (LiveSound system.heap system.live →
        (LiveSound next.heap next.live ↔ RoundsUp config nBytes)) := by
  obtain ⟨chunk, member, rfl, inside, isHead⟩ := held
  have notNull := ptrFromBlock_ne_zero invariant.valid inside
  obtain ⟨length, here⟩ := exists_chunk inside isHead
  obtain ⟨final, ptrOut, run, outcome⟩ := gcRealloc_outcome invariant roots size some_ allowMove here
  unfold System.realloc
  simp only [MpStateMem.blockFromPtr_ptrFromBlock]
  have others : ∀ other ∈ without chunk.1 system.live, other ∈ system.live ∧ other.1 ≠ chunk.1 :=
    fun other belongs => by simpa [without] using belongs
  cases outcome with
  | wrapped wraps finalInvariant =>
    refine ⟨_, by simp [run, notNull]; rfl, finalInvariant, fun _ => iff_of_false ?_ wraps⟩
    intro sound
    have inPool := (sound.chunks _ mem_cons_self).inside
    have tooMany := blocks_lt_blocksFor finalInvariant.valid wraps
    simp only at inPool
    omega
  | inPlace fits finalInvariant resized kept =>
    refine ⟨_, by simp [run, notNull]; rfl, finalInvariant, fun sound => iff_of_true ?_ fits⟩
    refine (sound.filter _ fun other held different => ?_).cons resized fun other held => ?_
    · exact kept _ _ (by simpa using different) (sound.chunks other held)
    · exact (others other held).2
  | failed fits maybe =>
    obtain ⟨finalInvariant, survives, _⟩ := maybe.spec invariant
    exact ⟨_, by simp [run]; rfl, finalInvariant,
      fun sound => iff_of_true (sound.surviving survives) fits⟩
  | @moved searched target fits isSearched maybe different targetNotNull finalInvariant resized kept =>
    obtain ⟨_, survives, _⟩ := maybe.spec invariant
    have moved : system.heap.ptrFromBlock config target ≠ system.heap.ptrFromBlock config chunk.1 := by
      intro same
      apply different
      have blocks := congrArg (system.heap.blockFromPtr config) same
      simpa using blocks
    refine ⟨_, by simp [run, targetNotNull, moved, ← isSearched]; rfl, finalInvariant,
      fun sound => iff_of_true ?_ fits⟩
    have survivors := sound.surviving survives
    refine (survivors.filter _ fun other held different => ?_).cons resized fun other held => ?_
    · exact (kept _ _ (by simpa using different) (survivors.chunks other held)).2
    · obtain ⟨belongs, apart⟩ := mem_filter.mp held
      exact (kept _ _ (by simpa using apart) (survivors.chunks other belongs)).1

/-- Every operation that callers may ask for ends. It keeps the invariant, and keeps
the chunks that are held sound exactly if a resize rounds up. -/
theorem System.apply_step {op : HeapOp} (allowed : system.Allowed config op) :
    ∃ next, system.apply config op = some next ∧ HeapInvariant config next.heap ∧
      (LiveSound system.heap system.live →
        (LiveSound next.heap next.live ↔ op.RoundsUp config)) := by
  cases op with
  | gcAlloc roots nBytes hasFinaliser =>
    obtain ⟨next, run, after, sound⟩ := system.alloc_step invariant roots allowed hasFinaliser
    exact ⟨next, run, after, fun live => iff_of_true (sound live) trivial⟩
  | gcFree ptr =>
    obtain ⟨after, sound⟩ := system.free_step invariant allowed
    exact ⟨_, rfl, after, fun live => iff_of_true (sound live) trivial⟩
  | gcRealloc roots ptr nBytes allowMove =>
    obtain ⟨size, held⟩ := allowed
    by_cases null : ptr = 0
    · obtain ⟨next, run, after, sound⟩ := system.alloc_step invariant roots size false
      exact ⟨next, by simp [System.apply, null, run], after,
        fun live => iff_of_true (sound live) (Or.inl null)⟩
    · by_cases none : nBytes = 0
      · obtain ⟨after, sound⟩ := system.free_step invariant held
        refine ⟨_, by simp [System.apply, null, none], after, fun live =>
          iff_of_true (sound live) (Or.inr ?_)⟩
        have positive := config.bytesPerBlock_pos
        have small := Nat.le_of_dvd config.wordSpace_pos config.bytesPerBlock_dvd_wordSpace
        unfold RoundsUp
        omega
      · obtain ⟨next, run, after, sound⟩ := system.realloc_step invariant roots allowMove size none
          (held.resolve_left null)
        refine ⟨next, by simp [System.apply, null, none, run], after, fun live => ?_⟩
        rw [sound live]
        simp [HeapOp.RoundsUp, null]
  | gcCollect roots =>
    obtain ⟨heap, run, after, survives, _⟩ := gcCollect_invariant invariant roots
    exact ⟨_, by simp [System.apply, run]; rfl, after,
      fun live => iff_of_true (live.surviving survives) trivial⟩
  | write address value =>
    have same : SameTable system.heap (system.heap.store address value) := by
      refine ⟨rfl, rfl, rfl, fun other low high => system.heap.store_memory_other value ?_⟩
      rintro rfl
      have outside : other < _ ∨ _ ≤ other := allowed
      omega
    refine ⟨_, rfl, invariant.sameTable same, fun live => iff_of_true ?_ trivial⟩
    exact live.keep fun chunk member => same.chunk (live.chunks chunk member)
  | autoCollect enabled =>
    have same : SameTable system.heap { system.heap with gcAutoCollectEnabled := enabled } :=
      ⟨rfl, rfl, rfl, fun _ _ _ => rfl⟩
    refine ⟨_, rfl, invariant.sameTable same, fun live => iff_of_true ?_ trivial⟩
    exact live.keep fun chunk member => same.chunk (live.chunks chunk member)
  | threshold amount =>
    have same : SameTable system.heap { system.heap with gcAllocThreshold := amount } :=
      ⟨rfl, rfl, rfl, fun _ _ _ => rfl⟩
    refine ⟨_, rfl, invariant.sameTable same, fun live => iff_of_true ?_ trivial⟩
    exact live.keep fun chunk member => same.chunk (live.chunks chunk member)

end Steps

/-! ## Whole histories -/

/-- The heap that `gc_init` has just laid out, of which nobody holds anything. -/
def System.initial (config : Config) (memory : Memory) (start stop : Nat) : System :=
  ⟨gcInit config memory start stop, []⟩

/-- `gc_init` establishes the invariant. -/
theorem gcInit_invariant (memory : Memory) {start stop : Nat}
    (ordered : start ≤ alignDown config stop) (bounded : stop < config.wordSpace) :
    HeapInvariant config (gcInit config memory start stop) where
  wellFormed :=
    { valid := gcInit_valid config memory ordered bounded
      attached := by
        intro block inside isTail
        simp [gcInit_free config memory start stop inside] at isTail
      unmarked := by
        intro block inside
        simp [gcInit_free config memory start stop inside] }
  hint := by
    intro block _ _
    simp [gcInit]
  unlocked := rfl

/-- A step keeps the invariant, and keeps the chunks that are held sound exactly if
it rounds up. -/
theorem System.Step.invariant {system next : System} {op : HeapOp}
    (invariant : HeapInvariant config system.heap) (step : system.Step config op next) :
    HeapInvariant config next.heap ∧
      (LiveSound system.heap system.live →
        (LiveSound next.heap next.live ↔ op.RoundsUp config)) := by
  obtain ⟨allowed, run⟩ := step
  obtain ⟨after, afterRun, spec⟩ := system.apply_step invariant allowed
  obtain rfl : next = after := some.inj (run.symm.trans afterRun)
  exact spec

theorem history_invariant (memory : Memory) {start stop : Nat}
    (ordered : start ≤ alignDown config stop) (bounded : stop < config.wordSpace)
    {run : List (HeapOp × System)}
    (runs : Run (System.Step config) (System.initial config memory start stop) run) :
    ∀ system ∈ visited (System.initial config memory start stop) run,
      HeapInvariant config system.heap :=
  runs.invariant _ (gcInit_invariant memory ordered bounded) fun invariant step =>
    (step.invariant invariant).1

/-- A history is sound throughout if and only if every resize in it rounds up. -/
theorem heapSound_iff (config : Config) (memory : Memory) {start stop : Nat}
    (ordered : start ≤ alignDown config stop) (bounded : stop < config.wordSpace)
    {run : List (HeapOp × System)}
    (runs : Run (System.Step config) (System.initial config memory start stop) run) :
    (∀ system ∈ visited (System.initial config memory start stop) run, HeapSound config system) ↔
      ∀ taken ∈ fired (System.initial config memory start stop) run, taken.2.RoundsUp config := by
  have initial := gcInit_invariant memory ordered bounded
  have empty : LiveSound (System.initial config memory start stop).heap
      (System.initial config memory start stop).live :=
    ⟨fun _ member => absurd member not_mem_nil, List.Pairwise.nil⟩
  refine runs.forall_iff (fun system => HeapInvariant config system.heap)
    (fun _ op => op.RoundsUp config) initial ((heapSound_iff_liveSound initial).mpr empty)
    (fun invariant step => (step.invariant invariant).1) ?_
  intro system op next invariant sound step
  obtain ⟨after, exactly⟩ := step.invariant invariant
  rw [heapSound_iff_liveSound after]
  exact exactly ((heapSound_iff_liveSound invariant).mp sound)

/-- A heap of four blocks of 16 bytes. -/
def smallSystem : System := .initial smallConfig (fun _ => 0#8) 14 80

theorem heapSound_iff_one_block :
    ∃ run, Run (System.Step smallConfig) smallSystem run ∧
      run.map Prod.fst = [HeapOp.gcAlloc ⟨[], []⟩ 16 false] ∧
      ((∀ system ∈ visited smallSystem run, HeapSound smallConfig system) ↔
        ∀ taken ∈ fired smallSystem run, taken.2.RoundsUp smallConfig) := by
  have ordered : 14 ≤ alignDown smallConfig 80 := by decide
  have bounded : 80 < smallConfig.wordSpace := by decide
  have allowed : smallSystem.Allowed smallConfig (.gcAlloc ⟨[], []⟩ 16 false) :=
    show 16 < smallConfig.wordSpace by decide
  obtain ⟨next, step, _⟩ := smallSystem.apply_step
    (gcInit_invariant (fun _ => 0#8) ordered bounded) allowed
  have runs : Run (System.Step smallConfig) smallSystem
      [(.gcAlloc ⟨[], []⟩ 16 false, next)] := .cons ⟨allowed, step⟩ .nil
  exact ⟨_, runs, rfl, heapSound_iff _ _ ordered bounded runs⟩

/-- Allocate 16 bytes, resize them to `SIZE_MAX` bytes, and allocate 16 bytes again: two
clients hold block 0. -/
theorem realloc_wraps_shares_block :
    ∃ run, Run (System.Step smallConfig) smallSystem run ∧
      run.map Prod.fst = [.gcAlloc ⟨[], []⟩ 16 false, .gcRealloc ⟨[], []⟩ 16 (2 ^ 32 - 1) true,
        .gcAlloc ⟨[], []⟩ 16 false] ∧
      ∃ system ∈ visited smallSystem run, system.live = [(0, 1), (0, 2 ^ 28)] ∧
        ¬ HeapSound smallConfig system := by
  let alloc : HeapOp := .gcAlloc ⟨[], []⟩ 16 false
  let resize : HeapOp := .gcRealloc ⟨[], []⟩ 16 (2 ^ 32 - 1) true
  have size : 16 < smallConfig.wordSpace := by decide
  have first : (smallSystem.apply smallConfig alloc).map (fun system =>
      (system.live, system.heap.layout.poolStart, system.heap.blocks, system.heap.atbGetKind 0)) =
        some ([(0, 1)], 16, 4, .head) := by decide
  have third : (((smallSystem.apply smallConfig alloc).bind
      (·.apply smallConfig resize)).bind (·.apply smallConfig alloc)).map System.live =
        some [(0, 1), (0, 2 ^ 28)] := by decide
  obtain ⟨one, toOne, seen⟩ := map_eq_some_iff.mp first
  obtain ⟨three, toThree, live⟩ := map_eq_some_iff.mp third
  rw [toOne, bind_some] at toThree
  obtain ⟨two, toTwo, fromTwo⟩ := bind_eq_some_iff.mp toThree
  simp only [Prod.mk.injEq] at seen
  obtain ⟨held, pool, blocks, isHead⟩ := seen
  have allowed : one.Allowed smallConfig resize := by
    refine ⟨by decide, Or.inr ⟨(0, 1), by simp [held], ?_, by simp [blocks], isHead⟩⟩
    simp [MpStateMem.ptrFromBlock, pool]
  refine ⟨[(alloc, one), (resize, two), (alloc, three)],
    .cons ⟨size, toOne⟩ (.cons ⟨allowed, toTwo⟩ (.cons ⟨size, fromTwo⟩ .nil)), rfl, three,
    by simp [visited], live, fun sound => ?_⟩
  have apart := sound.disjoint
  rw [live] at apart
  simp at apart

end MultiPython.Heap
