import MultiPython.Heap.MarkPhase

/-!
# The sweep phase

The sweep is one pass over the table with a single bit of memory, `free_tail`.
`owner` names the block a tail belongs to; for a table whose tails are attached
to a chunk, `free_tail` is at every block what that block's owner asks for, and
`gcSweep_kinds` gives every entry after the pass. The finaliser protocol writes
to the finaliser table only, so the sweep touches nothing from the pool on.
-/

namespace MultiPython.Heap

open List Option

variable {config : Config}

/-- Every tail of the table directly follows a block that is not free. -/
def TailsAttached (state : MpStateMem) : Prop :=
  ∀ block < state.blocks, state.atbGetKind block = .tail →
    0 < block ∧ state.atbGetKind (block - 1) ≠ .free

/-- The nearest entry at or before `block` that is not a tail. -/
def owner (kind : Nat → AtbKind) : Nat → Nat
  | 0 => 0
  | block + 1 => if kind (block + 1) = .tail then owner kind block else block + 1

variable {kind : Nat → AtbKind}

theorem owner_of_ne_tail {block : Nat} (notTail : kind block ≠ .tail) :
    owner kind block = block := by
  cases block with
  | zero => rfl
  | succ block => rw [owner, if_neg notTail]

theorem owner_of_tail {block : Nat} (isTail : kind (block + 1) = .tail) :
    owner kind (block + 1) = owner kind block := by
  rw [owner, if_pos isTail]

theorem owner_le (kind : Nat → AtbKind) (block : Nat) : owner kind block ≤ block := by
  induction block with
  | zero => exact Nat.le_refl 0
  | succ block ih =>
    rw [owner]
    split
    · omega
    · exact Nat.le_refl _

variable {state : MpStateMem}

theorem TailsAttached.owner_kind (attached : TailsAttached state) {block : Nat}
    (inside : block < state.blocks) (used : state.atbGetKind block ≠ .free) :
    state.atbGetKind (owner state.atbGetKind block) = .head ∨
      state.atbGetKind (owner state.atbGetKind block) = .mark := by
  induction block with
  | zero =>
    cases kind : state.atbGetKind 0 with
    | free => exact absurd kind used
    | tail => exact absurd (attached 0 inside kind).1 (Nat.lt_irrefl 0)
    | head => exact Or.inl kind
    | mark => exact Or.inr kind
  | succ block ih =>
    cases kind : state.atbGetKind (block + 1) with
    | free => exact absurd kind used
    | tail =>
      rw [owner_of_tail kind]
      exact ih (by omega) (attached (block + 1) inside kind).2
    | head => exact Or.inl (by rw [owner_of_ne_tail (by simp [kind]), kind])
    | mark => exact Or.inr (by rw [owner_of_ne_tail (by simp [kind]), kind])

/-- The entry a sweep leaves behind, in terms of the entries it found. -/
def sweptKind (kind : Nat → AtbKind) (block : Nat) : AtbKind :=
  match kind block with
  | .free => .free
  | .head => .free
  | .mark => .head
  | .tail => if kind (owner kind block) = .mark then .tail else .free

/-- What collecting keeps besides the table: the layout, the pool and everything
behind it, and the settings. -/
structure SamePool (before after : MpStateMem) : Prop where
  layout : after.layout = before.layout
  memory : ∀ address, before.layout.poolStart ≤ address →
    after.memory address = before.memory address
  gcLockDepth : after.gcLockDepth = before.gcLockDepth
  gcAutoCollectEnabled : after.gcAutoCollectEnabled = before.gcAutoCollectEnabled
  gcAllocThreshold : after.gcAllocThreshold = before.gcAllocThreshold

variable {before after : MpStateMem}

namespace SamePool

theorem refl (state : MpStateMem) : SamePool state state := ⟨rfl, fun _ _ => rfl, rfl, rfl, rfl⟩

theorem trans {before middle after : MpStateMem} (first : SamePool before middle)
    (second : SamePool middle after) : SamePool before after where
  layout := second.layout.trans first.layout
  memory := fun address above => by
    rw [second.memory address (by rw [first.layout]; exact above), first.memory address above]
  gcLockDepth := second.gcLockDepth.trans first.gcLockDepth
  gcAutoCollectEnabled := second.gcAutoCollectEnabled.trans first.gcAutoCollectEnabled
  gcAllocThreshold := second.gcAllocThreshold.trans first.gcAllocThreshold

theorem blocks (same : SamePool before after) :
    after.blocks = before.blocks := congrArg Layout.blocks same.layout

theorem store {address : Nat} (value : Byte) (below : address < state.layout.poolStart) :
    SamePool state (state.store address value) :=
  ⟨rfl, fun _ above => state.store_memory_other value (by omega), rfl, rfl, rfl⟩

end SamePool

theorem Marked.samePool (marked : Marked before after) (valid : before.layout.Valid config) :
    SamePool before after where
  layout := marked.layout
  memory := fun address above => marked.outside address (Or.inr (valid.tableBelowPool.trans above))
  gcLockDepth := by
    have fields := congrArg MpStateMem.gcLockDepth marked.frame
    exact fields
  gcAutoCollectEnabled := by
    have fields := congrArg MpStateMem.gcAutoCollectEnabled marked.frame
    exact fields
  gcAllocThreshold := by
    have fields := congrArg MpStateMem.gcAllocThreshold marked.frame
    exact fields

section Valid

variable {state : MpStateMem} (valid : state.layout.Valid config) {block : Nat}
  (inside : block < state.blocks)

include valid inside

theorem atbAddress_lt_poolStart : state.atbAddress block < state.layout.poolStart :=
  Nat.lt_of_lt_of_le (state.atbAddress_lt inside) valid.tableBelowPool

theorem ftbAddress_lt_poolStart (enabled : config.enableFinaliser = true) :
    state.ftbAddress block < state.layout.poolStart := by
  have fits := valid.finaliserBelowPool enabled
  have bound : block < state.layout.blocks := inside
  simp only [MpStateMem.ftbAddress, blocksPerFtb] at fits ⊢
  omega

theorem ftbAddress_ne_atbAddress (enabled : config.enableFinaliser = true) (other : Nat) :
    state.ftbAddress other ≠ state.atbAddress block := by
  have below := state.atbAddress_lt inside
  have after := valid.finaliserAfterTable enabled
  simp only [MpStateMem.ftbAddress, blocksPerFtb]
  omega

theorem gcFinalise_kind (other : Nat) :
    (gcFinalise config state other).atbGetKind block = state.atbGetKind block := by
  unfold gcFinalise
  by_cases enabled : (config.enableFinaliser && state.ftbGet other) = true
  · have apart := ftbAddress_ne_atbAddress valid inside (Bool.and_eq_true_iff.mp enabled).1 other
    simp only [enabled, if_true]
    split <;> exact MpStateMem.kind_store_outside _ _ apart
  · simp [enabled]

theorem gcFinalise_samePool : SamePool state (gcFinalise config state block) := by
  unfold gcFinalise
  by_cases enabled : (config.enableFinaliser && state.ftbGet block) = true
  · have below := ftbAddress_lt_poolStart valid inside (Bool.and_eq_true_iff.mp enabled).1
    simp only [enabled, if_true]
    split
    · have logged : SamePool state { state with finalised := block :: state.finalised } :=
        ⟨rfl, fun _ _ => rfl, rfl, rfl, rfl⟩
      exact logged.trans (SamePool.store _ below)
    · exact SamePool.store _ below
  · simp only [enabled]
    exact SamePool.refl state

end Valid

/-- The state of the sweep before block `count`: the entries below are swept, the
others are as found, and `free_tail` is what the owner of the last block asks for. -/
structure SweepProgress (found : MpStateMem) (count : Nat) (progress : MpStateMem × Bool) :
    Prop where
  samePool : SamePool found progress.1
  swept : ∀ block < count, progress.1.atbGetKind block = sweptKind found.atbGetKind block
  ahead : ∀ block < found.blocks, count ≤ block →
    progress.1.atbGetKind block = found.atbGetKind block
  freeTail : 0 < count → found.atbGetKind (count - 1) ≠ .free →
    (progress.2 = true ↔ found.atbGetKind (owner found.atbGetKind (count - 1)) = .head)

variable {found : MpStateMem}

/-- One iteration of the sweep. -/
theorem gcSweepBlock_progress {count : Nat} {progress : MpStateMem × Bool}
    (valid : found.layout.Valid config) (attached : TailsAttached found)
    (inside : count < found.blocks) (here : SweepProgress found count progress) :
    SweepProgress found (count + 1) (gcSweepBlock config progress count) := by
  obtain ⟨state, freeTail⟩ := progress
  have stateValid : state.layout.Valid config := here.samePool.layout ▸ valid
  have stateInside : count < state.blocks := here.samePool.blocks ▸ inside
  have current : state.atbGetKind count = found.atbGetKind count := here.ahead count inside le_rfl
  have belowPool := atbAddress_lt_poolStart stateValid stateInside
  -- Changing only the entry of block `count`, to its swept kind, is one step of progress.
  have advance : ∀ {next : MpStateMem} {flag : Bool}, SamePool state next →
      next.atbGetKind count = sweptKind found.atbGetKind count →
      (∀ block < found.blocks, block ≠ count → next.atbGetKind block = state.atbGetKind block) →
      (found.atbGetKind count ≠ .free →
        (flag = true ↔ found.atbGetKind (owner found.atbGetKind count) = .head)) →
      SweepProgress found (count + 1) (next, flag) := by
    intro next flag pool self others tail
    refine ⟨here.samePool.trans pool, ?_, ?_, fun _ => tail⟩
    · intro block below
      by_cases same : block = count
      · exact same ▸ self
      · exact (others block (by omega) same).trans (here.swept block (by omega))
    · intro block below above
      exact (others block below (by omega)).trans (here.ahead block below (by omega))
  cases kind : found.atbGetKind count with
  | free =>
    simp only [gcSweepBlock, current, kind]
    exact advance (SamePool.refl state) (by simp [current, kind, sweptKind]) (fun _ _ _ => rfl)
      (by simp [kind])
  | head =>
    simp only [gcSweepBlock, current, kind]
    have finalised := gcFinalise_samePool stateValid stateInside
    refine advance (finalised.trans (SamePool.store _ ?_)) ?_ ?_ ?_
    · rw [finalised.layout, MpStateMem.atbAddress, finalised.layout]
      exact belowPool
    · rw [MpStateMem.kind_anyToFree]
      simp [kind, sweptKind]
    · intro block below different
      rw [MpStateMem.kind_anyToFree, if_neg different]
      exact gcFinalise_kind stateValid (here.samePool.blocks ▸ below) count
    · simp [owner_of_ne_tail (show found.atbGetKind count ≠ .tail by simp [kind]), kind]
  | mark =>
    simp only [gcSweepBlock, current, kind]
    have marked : state.atbGetKind count = .mark := current.trans kind
    refine advance (SamePool.store _ belowPool) ?_ ?_ ?_
    · rw [state.kind_markToHead marked]
      simp [kind, sweptKind]
    · intro block _ different
      rw [state.kind_markToHead marked, if_neg different]
    · simp [owner_of_ne_tail (show found.atbGetKind count ≠ .tail by simp [kind]), kind]
  | tail =>
    obtain ⟨positive, used⟩ := attached count inside kind
    obtain ⟨previous, rfl⟩ : ∃ previous, count = previous + 1 := ⟨count - 1, by omega⟩
    have flag := here.freeTail positive used
    rw [Nat.add_sub_cancel] at flag used
    have same := owner_of_tail kind
    have ownerKind := attached.owner_kind inside (by simp [kind])
    simp only [gcSweepBlock, current, kind]
    by_cases free : freeTail = true
    · simp only [free, if_true]
      have unmarked := flag.mp free
      refine advance (SamePool.store _ belowPool) ?_ ?_ ?_
      · rw [state.kind_anyToFree]
        simp [kind, sweptKind, same, unmarked]
      · intro block _ different
        rw [state.kind_anyToFree, if_neg different]
      · intro _
        simp [same, unmarked]
    · have marked : found.atbGetKind (owner found.atbGetKind (previous + 1)) = .mark := by
        rcases ownerKind with isHead | isMark
        · exact absurd (flag.mpr (same ▸ isHead)) free
        · exact isMark
      simp only [free]
      refine advance (SamePool.refl state) ?_ (fun _ _ _ => rfl) ?_
      · simp [current, kind, sweptKind, marked]
      · intro _
        simp [marked]

theorem gcSweep_progress (valid : found.layout.Valid config) (attached : TailsAttached found)
    {count : Nat} (bounded : count ≤ found.blocks) :
    SweepProgress found count ((List.range count).foldl (gcSweepBlock config) (found, false)) := by
  induction count with
  | zero => exact ⟨SamePool.refl found, by simp, fun _ _ _ => rfl, by simp⟩
  | succ count ih =>
    rw [range_succ, foldl_append]
    exact gcSweepBlock_progress valid attached (by omega) (ih (by omega))

theorem gcSweep_kinds (valid : found.layout.Valid config) (attached : TailsAttached found) :
    SamePool found (gcSweep config found) ∧
      ∀ block < found.blocks,
        (gcSweep config found).atbGetKind block = sweptKind found.atbGetKind block := by
  have done := gcSweep_progress valid attached (le_refl found.blocks)
  exact ⟨done.samePool, done.swept⟩

theorem TailsAttached.marked (attached : TailsAttached before) (marked : Marked before after) :
    TailsAttached after := by
  intro block inside isTail
  obtain ⟨positive, used⟩ := attached block (marked.blocks ▸ inside) ((marked.tail_iff block).mp isTail)
  refine ⟨positive, ?_⟩
  rcases marked.kinds (block - 1) with same | ⟨_, nowMark⟩
  · rwa [same]
  · simp [nowMark]

theorem Marked.owner (marked : Marked before after) (block : Nat) :
    owner after.atbGetKind block = owner before.atbGetKind block := by
  induction block with
  | zero => rfl
  | succ block ih =>
    simp only [Heap.owner, marked.tail_iff, ih]

/-! ## A whole collection -/

theorem gcCollectRoot_areas (areas : List (List Nat)) (state : MpStateMem) :
    areas.foldlM (fun state ptrs => gcCollectRoot config ptrs state) state =
      gcCollectRoot config areas.flatten state := by
  induction areas generalizing state with
  | nil => rfl
  | cons ptrs rest ih =>
    simp only [foldlM_cons, flatten_cons, gcCollectRoot, foldlM_append]
    exact bind_congr fun next => ih next

/-- The blocks that a collection finds: reachable from the root pointers through
the words that its own walks of the chains cover. -/
def Traced (config : Config) (state : MpStateMem) (ptrs : List Nat) : Nat → Prop :=
  Logic.Marking.Reach state.heads (state.children config)
    (ptrs.flatMap fun ptr => (state.wordBlock config ptr).toList)

/-- The entry a collection leaves behind. -/
def CollectedKind (traced : Nat → Prop) (before : Nat → AtbKind) (block : Nat) (after : AtbKind) :
    Prop :=
  (traced (owner before block) → after = before block) ∧
    (¬ traced (owner before block) → after = .free)

/-- Sweeping what the mark phase has marked leaves exactly the traced chunks. -/
theorem sweptKind_collected {before settled : MpStateMem} {traced : Nat → Prop}
    (marked : Marked before settled)
    (unmarked : ∀ block < before.blocks, before.atbGetKind block ≠ .mark)
    (exactly : ∀ block < before.blocks, settled.atbGetKind block = .mark ↔ traced block)
    {block : Nat} (inside : block < before.blocks) :
    CollectedKind traced before.atbGetKind block (sweptKind settled.atbGetKind block) := by
  have sameOwner := marked.owner block
  have ownerInside : owner before.atbGetKind block < before.blocks :=
    Nat.lt_of_le_of_lt (owner_le _ _) inside
  unfold CollectedKind
  rw [← exactly _ ownerInside]
  cases kind : before.atbGetKind block with
  | free =>
    have settledFree : settled.atbGetKind block = .free := by
      rcases marked.kinds block with same | ⟨wasHead, _⟩
      · rw [same, kind]
      · simp [kind] at wasHead
    simp [sweptKind, settledFree]
  | head =>
    rw [owner_of_ne_tail (by simp [kind])]
    rcases marked.kinds block with same | ⟨_, nowMark⟩
    · simp [sweptKind, same, kind]
    · simp [sweptKind, nowMark]
  | tail =>
    have settledTail := (marked.tail_iff block).mpr kind
    by_cases isMark : settled.atbGetKind (owner before.atbGetKind block) = .mark
    · simp [sweptKind, settledTail, sameOwner, isMark]
    · simp [sweptKind, settledTail, sameOwner, isMark]
  | mark => exact absurd kind (unmarked block inside)

/-- The heap when `gc_collect_start` scans the first roots: no entry and no byte has changed. -/
def startedHeap (state : MpStateMem) : MpStateMem :=
  { state with
    gcLockDepth := state.gcLockDepth + 1
    gcAllocAmount := 0
    gcStackOverflow := false }

/-- A collection ends, and is a sweep of a heap in which exactly the traced blocks are marked. -/
theorem gcCollect_settles (valid : state.layout.Valid config)
    (unmarked : ∀ block < state.blocks, state.atbGetKind block ≠ .mark) (stateRoots : List Nat)
    (areas : List (List Nat)) :
    ∃ settled, gcCollect config stateRoots areas state = some { gcSweep config settled with
        gcLastFreeAtbIndex := 0, gcLockDepth := (gcSweep config settled).gcLockDepth - 1 } ∧
      Marked (startedHeap state) settled ∧
      ∀ block < state.blocks, settled.atbGetKind block = .mark ↔
        Traced config state (stateRoots ++ areas.flatten) block := by
  obtain ⟨traced, settled, tracedRun, settledRun, marked, _, exactly⟩ :=
    @markPhase_exact config (startedHeap state) valid unmarked rfl (stateRoots ++ areas.flatten)
  refine ⟨settled, ?_, marked, ?_⟩
  · rw [gcCollectRoot, foldlM_append] at tracedRun
    obtain ⟨started, startedRun, areasRun⟩ := bind_eq_some_iff.mp tracedRun
    have startRun : gcCollectStart config stateRoots state = some started := startedRun
    have areasRun' := (gcCollectRoot_areas areas started).trans areasRun
    simp only [gcCollect, startRun, areasRun', gcCollectEnd, settledRun, bind_eq_bind,
      bind_some, map_some]
  · have children : (startedHeap state).children config = state.children config :=
      MpStateMem.children_congr rfl rfl
    rw [children] at exactly
    exact exactly

/-- A collection ends, and keeps exactly the chunks that its mark phase traces. -/
theorem gcCollect_collects (valid : state.layout.Valid config) (attached : TailsAttached state)
    (unmarked : ∀ block < state.blocks, state.atbGetKind block ≠ .mark) (stateRoots : List Nat)
    (areas : List (List Nat)) :
    ∃ final, gcCollect config stateRoots areas state = some final ∧ SamePool state final ∧
      final.gcLastFreeAtbIndex = 0 ∧
      ∀ block < state.blocks, CollectedKind (Traced config state (stateRoots ++ areas.flatten))
        state.atbGetKind block (final.atbGetKind block) := by
  obtain ⟨settled, run, marked, exactly⟩ := gcCollect_settles valid unmarked stateRoots areas
  have startedAttached : TailsAttached (startedHeap state) := attached
  have settledValid : settled.layout.Valid config := marked.layout ▸ valid
  obtain ⟨sweptPool, swept⟩ := gcSweep_kinds settledValid (startedAttached.marked marked)
  have startedValid : (startedHeap state).layout.Valid config := valid
  have pool := (marked.samePool startedValid).trans sweptPool
  refine ⟨_, run, ?_, rfl, ?_⟩
  · refine ⟨pool.layout, pool.memory, ?_, pool.gcAutoCollectEnabled, pool.gcAllocThreshold⟩
    change (gcSweep config settled).gcLockDepth - 1 = state.gcLockDepth
    rw [pool.gcLockDepth]
    exact UInt16.add_sub_cancel _ _
  · intro block inside
    change CollectedKind _ _ _ ((gcSweep config settled).atbGetKind block)
    rw [swept block (marked.blocks ▸ inside)]
    exact @sweptKind_collected (startedHeap state) _ _ marked unmarked exactly _ inside

end MultiPython.Heap
