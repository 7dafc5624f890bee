import MultiPython.Heap.Realloc

/-!
# Finalisers

Which objects a collection finalises, and what `gc_sweep_all` leaves of a heap, which a port calls
when it ends. A finaliser runs while the heap is locked, and is no part of the model.
-/

namespace MultiPython.Heap

open List

variable {config : Config} {state : MpStateMem}

/-- The block starts an object that has a type and a finaliser flag. -/
def HasFinaliser (config : Config) (state : MpStateMem) (block : Nat) : Prop :=
  config.enableFinaliser = true ∧ state.ftbGet block = true ∧
    state.loadWord config (state.ptrFromBlock config block) ≠ 0

instance (block : Nat) : Decidable (HasFinaliser config state block) :=
  inferInstanceAs (Decidable (_ ∧ _ ∧ _))

/-- The objects with a finaliser whose heads are freed are finalised, each of them once, and no
others. -/
def Finalises (config : Config) (before after : MpStateMem) : Prop :=
  ∃ blocks : List Nat, after.finalised = blocks ++ before.finalised ∧ blocks.Nodup ∧
    ∀ block, block ∈ blocks ↔ block < before.blocks ∧ before.atbGetKind block = .head ∧
      after.atbGetKind block = .free ∧ HasFinaliser config before block

/-- The blocks that the sweep has finalised, the last one first. -/
theorem sweepRounds_finalised (valid : state.layout.Valid config) (attached : TailsAttached state)
    {count : Nat} (bounded : count ≤ state.blocks) :
    ((range count).foldl (gcSweepBlock config) (state, false)).1.finalised =
      ((range count).filter fun block =>
        decide (state.atbGetKind block = .head ∧ HasFinaliser config state block)).reverse ++
          state.finalised := by
  induction count with
  | zero => rfl
  | succ count ih =>
    have before := gcSweep_progress valid attached (show count ≤ state.blocks by omega)
    have flag (enabled : config.enableFinaliser = true) :=
      sweepRounds_ftbGet valid attached enabled count (show count ≤ state.blocks by omega)
    have log := ih (by omega)
    rw [range_succ, foldl_append, foldl_cons, foldl_nil, filter_append, reverse_append, append_assoc,
      ← log]
    generalize (range count).foldl (gcSweepBlock config) (state, false) = reached at before flag
    obtain ⟨now, freeTail⟩ := reached
    have current : now.atbGetKind count = state.atbGetKind count :=
      before.ahead count (by omega) le_rfl
    have word : now.loadWord config (now.ptrFromBlock config count) =
        state.loadWord config (state.ptrFromBlock config count) := by
      have layout : now.layout = state.layout := before.samePool.layout
      rw [MpStateMem.ptrFromBlock, layout]
      exact MpStateMem.loadWord_congr fun offset _ => before.samePool.memory _ (by omega)
    simp only [lt_self_iff_false, if_false] at flag
    have cleared : ∀ (heap : MpStateMem) (block : Nat),
        (heap.atbMarkToHead block).finalised = heap.finalised ∧
          (heap.atbAnyToFree block).finalised = heap.finalised := fun _ _ => ⟨rfl, rfl⟩
    have unflagged : ∀ (heap : MpStateMem) (block : Nat),
        (heap.ftbClear block).finalised = heap.finalised := fun _ _ => rfl
    cases kind : state.atbGetKind count with
    | free => simp [gcSweepBlock, current, kind]
    | mark =>
      simp only [gcSweepBlock, current, kind]
      simp [kind, cleared]
    | tail =>
      simp only [gcSweepBlock, current, kind]
      split <;> simp [kind, cleared]
    | head =>
      simp only [gcSweepBlock, current, kind, cleared, gcFinalise]
      by_cases enabled : config.enableFinaliser = true
      · rw [flag enabled, word]
        by_cases flagged : state.ftbGet count = true
        · by_cases typed : state.loadWord config (state.ptrFromBlock config count) = 0
          · simp [HasFinaliser, kind, enabled, flagged, typed, unflagged]
          · simp [HasFinaliser, kind, enabled, flagged, typed, unflagged]
        · simp [HasFinaliser, enabled, flagged]
      · simp [HasFinaliser, enabled]

/-- The sweep finalises what the mark phase has not marked. -/
theorem gcSweep_finalises {settled : MpStateMem} (valid : state.layout.Valid config)
    (attached : TailsAttached state) (marked : Marked state settled) : Finalises config state (gcSweep config settled) := by
  have settledValid : settled.layout.Valid config := marked.layout ▸ valid
  have log := sweepRounds_finalised settledValid (attached.marked marked) (le_refl settled.blocks)
  have same : settled.finalised = state.finalised := by
    rw [← marked.frame]
  rw [same] at log
  refine ⟨_, log, nodup_reverse.mpr (nodup_range.filter _), ?_⟩
  intro block
  rw [mem_reverse, mem_filter, mem_range, decide_eq_true_iff, marked.blocks]
  refine and_congr_right fun inside => ?_
  have swept := (gcSweep_kinds settledValid (attached.marked marked)).2 block (marked.blocks ▸ inside)
  have has : HasFinaliser config settled block ↔ HasFinaliser config state block := by
    refine and_congr_right fun enabled => ?_
    have place : settled.ptrFromBlock config block = state.ptrFromBlock config block := by
      simp only [MpStateMem.ptrFromBlock, marked.layout]
    have above : state.layout.poolStart ≤ state.ptrFromBlock config block := Nat.le_add_left _ _
    rw [marked.sameBehind.ftbGet valid enabled, place, marked.loadWord valid above]
  rw [has, swept, ← and_assoc]
  refine and_congr_left fun _ => ?_
  rcases marked.kinds block with keeps | ⟨wasHead, nowMark⟩
  · rw [keeps]
    exact ⟨fun isHead => ⟨isHead, by simp [sweptKind, keeps, isHead]⟩, And.left⟩
  · simp [sweptKind, wasHead, nowMark]

/-- A collection finalises exactly the objects with a finaliser that it reclaims. -/
theorem gcCollect_finalises (invariant : HeapInvariant config state) (stateRoots : List Nat)
    (areas : List (List Nat)) : ∃ final, gcCollect config stateRoots areas state = some final ∧
      Finalises config state final := by
  obtain ⟨settled, ran, marked, -⟩ :=
    gcCollect_settles invariant.valid invariant.wellFormed.unmarked stateRoots areas
  refine ⟨_, ran, ?_⟩
  exact @gcSweep_finalises _ (startedHeap state) _ invariant.valid invariant.attached marked

/-- No root reaches the object with the flag. -/
theorem gcCollect_finalises_stray : ∃ final, gcCollect smallConfig [] [] strayHeap = some final ∧
    Finalises smallConfig strayHeap final :=
  gcCollect_finalises ⟨strayHeap_wellFormed, fun _ _ _ => Nat.zero_le _, rfl⟩ [] []

/-- `gc_sweep_all` finalises every object with a finaliser and leaves a heap without any chunk or
flag. -/
theorem gcSweepAll_frees (invariant : HeapInvariant config state)
    (flags : FlagsOnHeads config state) : ∃ final, gcSweepAll config state = some final ∧
      HeapInvariant config final ∧ Finalises config state final ∧
      ∀ block < state.blocks, final.atbGetKind block = .free ∧
        (config.enableFinaliser = true → final.ftbGet block = false) := by
  let started : MpStateMem :=
    { state with gcLockDepth := state.gcLockDepth + 1, gcStackOverflow := false }
  have valid : started.layout.Valid config := invariant.valid
  have attached : TailsAttached started := invariant.attached
  have unmarked : ∀ block < started.blocks, started.atbGetKind block ≠ .mark :=
    invariant.wellFormed.unmarked
  obtain ⟨pool, swept⟩ := gcSweep_kinds valid attached
  have free : ∀ block < state.blocks, (gcSweep config started).atbGetKind block = .free := by
    intro block inside
    have notMark := unmarked (owner state.atbGetKind block)
      (Nat.lt_of_le_of_lt (owner_le _ _) inside)
    rw [swept block inside, sweptKind]
    cases kind : started.atbGetKind block with
    | free => rfl
    | head => rfl
    | tail => exact if_neg notMark
    | mark => exact absurd kind (unmarked block inside)
  have finalises := gcSweep_finalises valid attached (Marked.refl started)
  refine ⟨{ gcSweep config started with
    gcLastFreeAtbIndex := 0, gcLockDepth := (gcSweep config started).gcLockDepth - 1 },
    rfl, ?_, finalises, ?_⟩
  · have inside {block : Nat} (below : block < (gcSweep config started).blocks) :
        block < state.blocks := pool.blocks ▸ below
    refine ⟨⟨pool.layout ▸ valid, fun block below isTail => ?_, fun block below isMark => ?_⟩,
      fun _ _ _ => by simp, ?_⟩
    · exact absurd ((free block (inside below)).symm.trans isTail) (by decide)
    · exact absurd ((free block (inside below)).symm.trans isMark) (by decide)
    · change (gcSweep config started).gcLockDepth - 1 = 0
      rw [pool.gcLockDepth, show started.gcLockDepth = 1 by simp [started, invariant.unlocked]]
      rfl
  · refine fun block inside => ⟨free block inside, fun enabled => ?_⟩
    have flag := gcSweep_ftbGet valid attached enabled inside
    refine flag.trans ?_
    by_cases flagged : state.ftbGet block = true
    · have isHead : started.atbGetKind block = .head := flags enabled block inside flagged
      simp [isHead]
    · exact Bool.and_eq_false_iff.mpr (.inr (Bool.eq_false_iff.mpr flagged))

/-- The heap with a flag on block 1. -/
theorem gcSweepAll_frees_stray : ∃ final, gcSweepAll smallConfig strayHeap = some final ∧
    Finalises smallConfig strayHeap final ∧ ∀ block < 8, final.atbGetKind block = .free := by
  have invariant : HeapInvariant smallConfig strayHeap :=
    ⟨strayHeap_wellFormed, fun _ _ _ => Nat.zero_le _, rfl⟩
  obtain ⟨final, ran, -, finalises, free⟩ := gcSweepAll_frees invariant strayHeap_flags
  exact ⟨final, ran, finalises, fun block inside => (free block inside).1⟩

end MultiPython.Heap
