import MultiPython.Heap.Outcome

/-!
# Finaliser flags and contents

What the collector and the allocator do to the bytes behind the allocation table: the flags of
the finaliser table, one for each block, and the contents of the pool. The macros of the
allocation table do not touch them as long as they stay inside the table.
-/

namespace MultiPython.Heap

open List Option

variable {config : Config}

/-! ## The macros of the finaliser table -/

private theorem flag_eq (byte : Byte) (slot : Nat) :
    (byte >>> slot &&& 1#8 != 0#8) = byte.getLsbD slot := by
  rw [BitVec.and_one_eq_setWidth_ofBool_getLsbD, BitVec.getLsbD_ushiftRight, Nat.add_zero]
  cases byte.getLsbD slot <;> rfl

private theorem flag_set (byte : Byte) (slot other : Fin 8) :
    ((byte ||| (1#8 <<< slot.val)) >>> other.val &&& 1#8 != 0#8) =
      (decide (other = slot) || (byte >>> other.val &&& 1#8 != 0#8)) := by
  have bit : (1#8 <<< slot.val).getLsbD other.val = decide (other = slot) := by
    revert slot other
    decide
  rw [flag_eq, flag_eq, BitVec.getLsbD_or, bit, Bool.or_comm]

private theorem flag_clear (byte : Byte) (slot other : Fin 8) :
    ((byte &&& ~~~(1#8 <<< slot.val)) >>> other.val &&& 1#8 != 0#8) =
      (decide (other ≠ slot) && (byte >>> other.val &&& 1#8 != 0#8)) := by
  have bit : (~~~(1#8 <<< slot.val)).getLsbD other.val = decide (other ≠ slot) := by
    revert slot other
    decide
  rw [flag_eq, flag_eq, BitVec.getLsbD_and, bit, Bool.and_comm]

private theorem flagSlot_eq (block : Nat) : block &&& 7 = block % blocksPerFtb :=
  Nat.and_two_pow_sub_one_eq_mod block 3

private theorem flagSlot_lt (block : Nat) : block % blocksPerFtb < 8 := Nat.mod_lt _ (by decide)

variable {block : Nat}

namespace MpStateMem

variable (state : MpStateMem)

theorem ftbGet_congr {first second : MpStateMem}
    (byte : first.memory (first.ftbAddress block) = second.memory (second.ftbAddress block)) :
    first.ftbGet block = second.ftbGet block := by
  rw [ftbGet, ftbGet, byte]

private theorem ftb_sameByte {block other : Nat}
    (sameByte : state.ftbAddress block = state.ftbAddress other) :
    (⟨other % blocksPerFtb, flagSlot_lt other⟩ : Fin 8) = ⟨block % blocksPerFtb, flagSlot_lt block⟩ ↔
      other = block := by
  rw [Fin.mk.injEq]
  simp only [ftbAddress, blocksPerFtb] at sameByte ⊢
  omega

theorem ftbGet_ftbSet (block other : Nat) :
    (state.ftbSet block).ftbGet other = (decide (other = block) || state.ftbGet other) := by
  by_cases sameByte : state.ftbAddress block = state.ftbAddress other
  · have slots := state.ftb_sameByte sameByte
    have changed := flag_set (state.memory (state.ftbAddress block))
      ⟨block % blocksPerFtb, flagSlot_lt block⟩ ⟨other % blocksPerFtb, flagSlot_lt other⟩
    rw [decide_eq_decide.mpr slots] at changed
    simp only [ftbGet, flagSlot_eq]
    change ((state.ftbSet block).memory (state.ftbAddress other) >>> _ &&& 1#8 != 0#8) = _
    rw [← sameByte, ftbSet, store_memory_self, flagSlot_eq]
    exact changed
  · have different : other ≠ block := fun same => sameByte (by rw [same])
    rw [decide_eq_false different, Bool.false_or]
    exact ftbGet_congr (state.store_memory_other _ (Ne.symm sameByte))

theorem ftbGet_ftbClear (block other : Nat) :
    (state.ftbClear block).ftbGet other = (decide (other ≠ block) && state.ftbGet other) := by
  by_cases sameByte : state.ftbAddress block = state.ftbAddress other
  · have slots := state.ftb_sameByte sameByte
    have changed := flag_clear (state.memory (state.ftbAddress block))
      ⟨block % blocksPerFtb, flagSlot_lt block⟩ ⟨other % blocksPerFtb, flagSlot_lt other⟩
    rw [decide_eq_decide.mpr (not_congr slots)] at changed
    simp only [ftbGet, flagSlot_eq]
    change ((state.ftbClear block).memory (state.ftbAddress other) >>> _ &&& 1#8 != 0#8) = _
    rw [← sameByte, ftbClear, store_memory_self, flagSlot_eq]
    exact changed
  · have different : other ≠ block := fun same => sameByte (by rw [same])
    rw [decide_eq_true different, Bool.true_and]
    exact ftbGet_congr (state.store_memory_other _ (Ne.symm sameByte))

end MpStateMem

/-! ## Behind the table -/

/-- The layout and all bytes behind the allocation table are the same. -/
structure SameBehind (before after : MpStateMem) : Prop where
  layout : after.layout = before.layout
  memory : ∀ address,
    before.layout.allocTableStart + before.layout.allocTableByteLen ≤ address →
      after.memory address = before.memory address

variable {state : MpStateMem}

namespace SameBehind

variable {before middle after : MpStateMem}

theorem refl (state : MpStateMem) : SameBehind state state := ⟨rfl, fun _ _ => rfl⟩

theorem trans (first : SameBehind before middle) (second : SameBehind middle after) :
    SameBehind before after where
  layout := second.layout.trans first.layout
  memory := fun address behind => by
    rw [second.memory address (by rw [first.layout]; exact behind), first.memory address behind]

theorem blocks (same : SameBehind before after) : after.blocks = before.blocks :=
  congrArg Layout.blocks same.layout

theorem ftbGet (same : SameBehind before after) (valid : before.layout.Valid config)
    (enabled : config.enableFinaliser = true) (block : Nat) :
    after.ftbGet block = before.ftbGet block := by
  apply MpStateMem.ftbGet_congr
  rw [MpStateMem.ftbAddress, MpStateMem.ftbAddress, same.layout]
  refine same.memory _ ?_
  rw [valid.finaliserAfterTable enabled]
  exact Nat.le_add_right _ _

theorem store (inside : block < state.blocks) (value : Byte) :
    SameBehind state (state.store (state.atbAddress block) value) := by
  have below := state.atbAddress_lt inside
  exact ⟨rfl, fun address behind => state.store_memory_other value (by omega)⟩

section

variable {change : MpStateMem → Nat → MpStateMem}
  (step : ∀ state block, block < state.blocks → SameBehind state (change state block))

include change step

variable {state : MpStateMem}

/-- So does a macro that is applied to entries of the table. -/
theorem foldl {blocks : List Nat} (inside : ∀ block ∈ blocks, block < state.blocks) :
    SameBehind state (blocks.foldl change state) := by
  induction blocks generalizing state with
  | nil => exact refl state
  | cons block rest ih =>
    have here := step state block (inside block mem_cons_self)
    refine here.trans (ih fun other member => ?_)
    rw [here.blocks]
    exact inside other (mem_cons_of_mem _ member)

theorem range' {first count : Nat} (inside : first + count ≤ state.blocks) :
    SameBehind state ((List.range' first count).foldl change state) := by
  refine foldl step fun block member => ?_
  rw [mem_range'_1] at member
  omega

end

end SameBehind

variable {before after : MpStateMem}

theorem Marked.sameBehind (marked : Marked before after) : SameBehind before after :=
  ⟨marked.layout, fun address behind => marked.outside address (Or.inr behind)⟩

/-! ## The flags in a collection -/

/-- Only heads of chunks have a finaliser flag. -/
def FlagsOnHeads (config : Config) (state : MpStateMem) : Prop :=
  config.enableFinaliser = true → ∀ block < state.blocks, state.ftbGet block = true →
    state.atbGetKind block = .head

theorem gcFinalise_ftbGet (enabled : config.enableFinaliser = true) (state : MpStateMem)
    (block other : Nat) :
    (gcFinalise config state block).ftbGet other = (decide (other ≠ block) && state.ftbGet other) := by
  unfold gcFinalise
  by_cases flagged : (config.enableFinaliser && state.ftbGet block) = true
  · simp only [flagged, if_true]
    rw [MpStateMem.ftbGet_ftbClear]
    split
    · rfl
    · rfl
  · have unflagged : state.ftbGet block = false := by simpa [enabled] using flagged
    simp only [flagged]
    by_cases same : other = block
    · simp [same, unflagged]
    · simp [same]

/-- The flags while the sweep runs. -/
theorem sweepRounds_ftbGet {found : MpStateMem} (valid : found.layout.Valid config)
    (attached : TailsAttached found) (enabled : config.enableFinaliser = true) (block : Nat)
    {count : Nat} (bounded : count ≤ found.blocks) :
    ((List.range count).foldl (gcSweepBlock config) (found, false)).1.ftbGet block =
      if block < count then decide (found.atbGetKind block ≠ .head) && found.ftbGet block
      else found.ftbGet block := by
  induction count with
  | zero => simp
  | succ count ih =>
    have before := gcSweep_progress valid attached (show count ≤ found.blocks by omega)
    have flag := ih (by omega)
    rw [range_succ, foldl_append, foldl_cons, foldl_nil]
    generalize (List.range count).foldl (gcSweepBlock config) (found, false) = reached at before flag
    obtain ⟨state, freeTail⟩ := reached
    have stateInside : count < state.blocks := before.samePool.blocks ▸ bounded
    have stateValid : state.layout.Valid config := before.samePool.layout ▸ valid
    have current : state.atbGetKind count = found.atbGetKind count :=
      before.ahead count (by omega) le_rfl
    have kept {next : MpStateMem} (same : SameBehind state next)
        (notHead : found.atbGetKind count ≠ .head) :
        next.ftbGet block = if block < count + 1
          then decide (found.atbGetKind block ≠ .head) && found.ftbGet block
          else found.ftbGet block := by
      rw [same.ftbGet stateValid enabled, flag]
      by_cases here : block = count
      · subst here
        simp [notHead]
      · exact if_congr (by omega) rfl rfl
    cases kind : found.atbGetKind count with
    | free =>
      simp only [gcSweepBlock, current, kind]
      exact kept (SameBehind.refl state) (by simp [kind])
    | mark =>
      simp only [gcSweepBlock, current, kind]
      exact kept (SameBehind.store stateInside _) (by simp [kind])
    | tail =>
      simp only [gcSweepBlock, current, kind]
      split
      · exact kept (SameBehind.store stateInside _) (by simp [kind])
      · exact kept (SameBehind.refl state) (by simp [kind])
    | head =>
      simp only [gcSweepBlock, current, kind]
      have finalised := gcFinalise_samePool stateValid stateInside
      have freed : SameBehind (gcFinalise config state count)
          ((gcFinalise config state count).atbAnyToFree count) :=
        SameBehind.store (by rw [finalised.blocks]; exact stateInside) _
      rw [freed.ftbGet (finalised.layout ▸ stateValid) enabled, gcFinalise_ftbGet enabled, flag]
      by_cases here : block = count
      · subst here
        simp [kind]
      · simp only [here, ne_eq, not_false_eq_true, decide_true, Bool.true_and]
        exact if_congr (by omega) rfl rfl

theorem gcSweep_ftbGet {found : MpStateMem} (valid : found.layout.Valid config)
    (attached : TailsAttached found) (enabled : config.enableFinaliser = true)
    (inside : block < found.blocks) :
    (gcSweep config found).ftbGet block =
      (decide (found.atbGetKind block ≠ .head) && found.ftbGet block) := by
  have done := sweepRounds_ftbGet valid attached enabled block (le_refl found.blocks)
  rwa [if_pos inside] at done

theorem gcCollect_ftbGet {state final : MpStateMem} (invariant : HeapInvariant config state)
    (enabled : config.enableFinaliser = true) (flags : FlagsOnHeads config state)
    {stateRoots : List Nat} {areas : List (List Nat)}
    (run : gcCollect config stateRoots areas state = some final) (inside : block < state.blocks) :
    final.ftbGet block = (decide (final.atbGetKind block = .head) && state.ftbGet block) := by
  have valid := invariant.valid
  obtain ⟨settled, settledRun, marked, _⟩ :=
    gcCollect_settles valid invariant.wellFormed.unmarked stateRoots areas
  obtain rfl := some.inj (run.symm.trans settledRun)
  have startedAttached : TailsAttached (startedHeap state) := invariant.attached
  have startedValid : (startedHeap state).layout.Valid config := valid
  have attached := startedAttached.marked marked
  have settledValid : settled.layout.Valid config := marked.layout ▸ valid
  have settledInside : block < settled.blocks := marked.blocks ▸ inside
  have swept := gcSweep_ftbGet settledValid attached enabled settledInside
  have kind := (gcSweep_kinds settledValid attached).2 block settledInside
  change (gcSweep config settled).ftbGet block =
    (decide ((gcSweep config settled).atbGetKind block = .head) && state.ftbGet block)
  have sameFlag : settled.ftbGet block = state.ftbGet block :=
    marked.sameBehind.ftbGet startedValid enabled block
  rw [swept, kind, sameFlag]
  cases flag : state.ftbGet block with
  | false => simp
  | true =>
    have isHead := flags enabled block inside flag
    rcases marked.kinds block with same | ⟨_, nowMark⟩
    · have stillHead : settled.atbGetKind block = .head := same.trans isHead
      simp [stillHead, sweptKind]
    · simp [nowMark, sweptKind]

/-! ## The bytes in an allocation -/

/-- An allocation of `length` blocks from `start` on has changed no byte of the pool outside
them, and no flag but that of the first block. -/
structure TakenBytes (config : Config) (before : MpStateMem) (start length : Nat)
    (hasFinaliser : Bool) (after : MpStateMem) : Prop where
  layout : after.layout = before.layout
  pool : ∀ address, before.layout.poolStart ≤ address →
    address < before.ptrFromBlock config start ∨
      before.ptrFromBlock config (start + length) ≤ address →
        after.memory address = before.memory address
  flags : config.enableFinaliser = true → ∀ block < before.blocks,
    after.ftbGet block = (decide (block = start) && hasFinaliser || before.ftbGet block)

variable {nBlocks endBlock : Nat}

theorem gcAllocMark_sameBehind (positive : 0 < nBlocks) (fits : nBlocks ≤ endBlock + 1)
    (inside : endBlock < state.blocks) : SameBehind state (gcAllocMark state endBlock nBlocks) := by
  have marked (hinted : MpStateMem) (same : SameBehind state hinted) : SameBehind state
      ((List.range' (endBlock + 1 - nBlocks + 1) (endBlock - (endBlock + 1 - nBlocks))).foldl
        MpStateMem.atbFreeToTail (hinted.atbFreeToHead (endBlock + 1 - nBlocks))) := by
    have blocks := same.blocks
    have headed : SameBehind hinted (hinted.atbFreeToHead (endBlock + 1 - nBlocks)) :=
      SameBehind.store (by omega) _
    refine (same.trans headed).trans
      (SameBehind.range' (fun _ _ below => SameBehind.store below _) ?_)
    rw [headed.blocks]
    omega
  unfold gcAllocMark
  by_cases single : nBlocks = 1
  · simp only [single, if_true]
    rw [single] at marked
    exact marked _ ⟨rfl, fun _ _ => rfl⟩
  · simp only [single, if_false]
    exact marked _ (SameBehind.refl state)

theorem ftbGet_ofMemory (valid : state.layout.Valid config)
    (enabled : config.enableFinaliser = true) {memory : Memory}
    (kept : ∀ address, address < state.layout.poolStart → memory address = state.memory address)
    (inside : block < state.blocks) :
    { state with memory := memory }.ftbGet block = state.ftbGet block :=
  MpStateMem.ftbGet_congr (kept _ (ftbAddress_lt_poolStart valid inside enabled))

theorem gcAllocClear_bytes (valid : state.layout.Valid config) (nBytes : Nat) (hasFinaliser : Bool)
    {startBlock endBlock : Nat} (order : startBlock ≤ endBlock) (fits : endBlock < state.blocks) :
    TakenBytes config state startBlock (endBlock - startBlock + 1) hasFinaliser
      (gcAllocClear config nBytes hasFinaliser state startBlock endBlock) := by
  let retPtr := state.layout.poolStart + startBlock * config.bytesPerBlock
  let byteLen := (endBlock - startBlock + 1) * config.bytesPerBlock
  let memory := if config.conservativeClear then memset state.memory retPtr 0 byteLen
    else memset state.memory (retPtr + nBytes) 0 (byteLen - nBytes)
  have startIs : state.ptrFromBlock config startBlock = retPtr := by
    simp only [MpStateMem.ptrFromBlock, retPtr]
    omega
  have stopIs : state.ptrFromBlock config (startBlock + (endBlock - startBlock + 1)) =
      retPtr + byteLen := by
    simp only [MpStateMem.ptrFromBlock, retPtr, byteLen, Nat.add_mul]
    omega
  have wordFits : config.bytesPerWord ≤ byteLen := by
    have whole : config.bytesPerBlock ≤ byteLen := Nat.le_mul_of_pos_left _ (by omega)
    rw [Config.bytesPerBlock] at whole
    omega
  have cleared : ∀ address, address < retPtr ∨ retPtr + byteLen ≤ address →
      memory address = state.memory address := by
    intro address outside
    simp only [memory]
    split
    · exact memset_outside _ outside
    · exact memset_outside _ (by omega)
  have untyped : ∀ address, address < retPtr ∨ retPtr + byteLen ≤ address →
      memset memory retPtr 0 config.bytesPerWord address = state.memory address := by
    intro address outside
    rw [memset_outside _ (by omega), cleared address outside]
  have abovePool : state.layout.poolStart ≤ retPtr := Nat.le_add_right _ _
  unfold gcAllocClear
  by_cases flagged : (config.enableFinaliser && hasFinaliser) = true
  · obtain ⟨enabled, rfl⟩ := Bool.and_eq_true_iff.mp flagged
    simp only [flagged, if_true]
    refine ⟨rfl, fun address above outside => ?_, fun _ block inside => ?_⟩
    · rw [startIs, stopIs] at outside
      have below := ftbAddress_lt_poolStart valid (show startBlock < state.blocks by omega) enabled
      rw [MpStateMem.ftbSet, MpStateMem.store_memory_other]
      · exact untyped address outside
      · exact Nat.ne_of_gt (Nat.lt_of_lt_of_le below above)
    · rw [MpStateMem.ftbGet_ftbSet, Bool.and_true]
      congr 1
      exact ftbGet_ofMemory valid enabled (fun address below => untyped address (by omega)) inside
  · simp only [flagged]
    refine ⟨rfl, fun address above outside => ?_, fun enabled block inside => ?_⟩
    · rw [startIs, stopIs] at outside
      exact cleared address outside
    · have none_ : hasFinaliser = false := by simpa [enabled] using flagged
      rw [none_, Bool.and_false, Bool.false_or]
      exact ftbGet_ofMemory valid enabled (fun address below => cleared address (by omega)) inside

theorem gcAllocTake_bytes (valid : state.layout.Valid config) (nBytes : Nat) (hasFinaliser : Bool)
    (positive : 0 < nBlocks) (fits : nBlocks ≤ endBlock + 1) (inside : endBlock < state.blocks) :
    TakenBytes config state (endBlock + 1 - nBlocks) nBlocks hasFinaliser
      (gcAllocTake config nBytes nBlocks hasFinaliser state endBlock nBlocks).1 := by
  have marked := gcAllocMark_sameBehind positive fits inside
  have length : endBlock - (endBlock + 1 - nBlocks) + 1 = nBlocks := by omega
  unfold gcAllocTake
  generalize gcAllocMark state endBlock nBlocks = mark at marked
  have counted : SameBehind state { mark with
      gcAllocAmount := (mark.gcAllocAmount + nBlocks) % config.wordSpace } :=
    ⟨marked.layout, marked.memory⟩
  have cleared := gcAllocClear_bytes (counted.layout ▸ valid) nBytes hasFinaliser
    (show endBlock + 1 - nBlocks ≤ endBlock by omega) (counted.blocks ▸ inside)
  rw [length] at cleared
  refine ⟨cleared.layout.trans counted.layout, fun address above outside => ?_,
    fun enabled block within => ?_⟩
  · rw [← counted.memory address (valid.tableBelowPool.trans above)]
    refine cleared.pool address (by rw [counted.layout]; exact above) ?_
    simp only [MpStateMem.ptrFromBlock, marked.layout] at outside ⊢
    exact outside
  · rw [cleared.flags enabled block (counted.blocks ▸ within), counted.ftbGet valid enabled]

/-- The bytes of the heap that an allocation leaves. -/
theorem gcAlloc_bytes (invariant : HeapInvariant config state) (roots : Roots) {nBytes : Nat}
    (size : nBytes < config.wordSpace) (hasFinaliser : Bool) {final : MpStateMem} {ptr : Nat}
    (run : gcAlloc config roots nBytes hasFinaliser state = some (final, ptr)) (notNull : ptr ≠ 0) :
    ∃ target, ptr = state.ptrFromBlock config target ∧
      TakenBytes config (searchedHeap config roots nBytes state) target (blocksFor config nBytes)
        hasFinaliser final := by
  have open_ : ¬ state.gcLockDepth > 0 := by simp [invariant.unlocked]
  by_cases none_ : gcAllocBlocks config nBytes = 0
  · simp only [gcAlloc, none_, if_true, some.injEq, Prod.mk.injEq] at run
    exact absurd run.2.symm notNull
  · have fits : RoundsUp config nBytes := by
      by_contra wraps
      exact none_ ((gcAllocBlocks_eq_gcReallocBlocks nBytes).trans (gcReallocBlocks_wrapped size wraps))
    have count : gcAllocBlocks config nBytes = blocksFor config nBytes :=
      (gcAllocBlocks_eq_gcReallocBlocks nBytes).trans (gcReallocBlocks_eq fits)
    obtain ⟨searched, search, maybe, _⟩ :=
      gcAllocSearch_spec invariant roots (gcAllocBlocks config nBytes)
    have searchedEq : searchedHeap config roots nBytes state = searched := by
      simp [searchedHeap, none_, search, invariant.unlocked]
    obtain ⟨searchedInvariant, survives, _⟩ := maybe.spec invariant
    rw [searchedEq]
    rw [count] at search none_
    simp only [gcAlloc, count, none_, open_, if_false, search, bind_eq_bind,
      bind_some] at run
    cases found : gcSearch searched (blocksFor config nBytes) with
    | ok nFree =>
      simp only [found, some.injEq, Prod.mk.injEq] at run
      exact absurd run.2.symm notNull
    | error located =>
      obtain ⟨endBlock, nFree⟩ := located
      have positive := Nat.pos_of_ne_zero none_
      obtain ⟨rfl, low, high, free, _⟩ := gcSearch_found positive found
      simp only [found, some.injEq] at run
      have bytes := gcAllocTake_bytes searchedInvariant.valid nBytes hasFinaliser positive low high
      obtain ⟨_, place⟩ := gcAllocTake_retabled searchedInvariant.valid nBytes hasFinaliser positive
        low free
      rw [run] at bytes place
      refine ⟨_, place.trans ?_, bytes⟩
      simp only [MpStateMem.ptrFromBlock, survives.layout]

theorem MaybeCollected.bytes {roots : Roots} (maybe : MaybeCollected config roots before after)
    (invariant : HeapInvariant config before) (flags : FlagsOnHeads config before) :
    (∀ address, before.layout.poolStart ≤ address → after.memory address = before.memory address) ∧
      (config.enableFinaliser = true → ∀ block < before.blocks, after.ftbGet block =
        (decide (after.atbGetKind block = .head) && before.ftbGet block)) := by
  rcases maybe with rfl | run
  · refine ⟨fun _ _ => rfl, fun enabled block inside => ?_⟩
    cases flag : after.ftbGet block with
    | false => simp
    | true => simp [flags enabled block inside flag]
  · obtain ⟨final, finalRun, pool, _⟩ := gcCollect_collects invariant.valid invariant.attached
      invariant.wellFormed.unmarked roots.state roots.areas
    obtain rfl := some.inj (run.symm.trans finalRun)
    exact ⟨pool.memory, fun enabled _ inside => gcCollect_ftbGet invariant enabled flags run inside⟩

end MultiPython.Heap
