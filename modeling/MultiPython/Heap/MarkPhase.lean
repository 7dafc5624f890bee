import MultiPython.Heap.Collect

/-!
# The mark phase as bounded-stack marking

`Marked before after` says what the mark phase may do to the heap: turn heads
into marks and raise the overflow flag, and nothing else. Every function of the
mark phase keeps it, and each is simulated by its counterpart in
`Logic.Marking`, with the heads of the table as the unmarked nodes and the
blocks found in a chain's words as its successors. `markPhase_exact` is what
`Marking.mark_exact` says about the table.
-/

namespace MultiPython.Heap

open Logic List Option

variable {config : Config}

/-- The mark phase only turns heads into marks and raises the overflow flag. -/
structure Marked (before after : MpStateMem) : Prop where
  frame : { after with memory := before.memory, gcStackOverflow := before.gcStackOverflow } = before
  outside : ∀ address, address < before.layout.allocTableStart ∨
    before.layout.allocTableStart + before.layout.allocTableByteLen ≤ address →
      after.memory address = before.memory address
  kinds : ∀ block, after.atbGetKind block = before.atbGetKind block ∨
    before.atbGetKind block = .head ∧ after.atbGetKind block = .mark

namespace Marked

variable {before after : MpStateMem}

theorem layout (marked : Marked before after) : after.layout = before.layout := by
  have layouts := congrArg MpStateMem.layout marked.frame
  exact layouts

theorem blocks (marked : Marked before after) :
    after.blocks = before.blocks := congrArg Layout.blocks marked.layout

theorem refl (state : MpStateMem) : Marked state state where
  frame := rfl
  outside := fun _ _ => rfl
  kinds := fun _ => .inl rfl

theorem trans {before middle after : MpStateMem} (first : Marked before middle)
    (second : Marked middle after) : Marked before after where
  frame := by
    rw [← first.frame, ← second.frame]
  outside := by
    intro address out
    rw [second.outside address (by rw [first.layout]; exact out), first.outside address out]
  kinds := by
    intro block
    rcases first.kinds block with same | ⟨wasHead, nowMark⟩
    · rw [← same]
      exact second.kinds block
    · rcases second.kinds block with same | ⟨wasHead, _⟩
      · exact .inr ⟨wasHead, by rw [same, nowMark]⟩
      · rw [nowMark] at wasHead
        cases wasHead

theorem tail_iff (marked : Marked before after) (block : Nat) :
    after.atbGetKind block = .tail ↔ before.atbGetKind block = .tail := by
  rcases marked.kinds block with same | ⟨wasHead, nowMark⟩
  · rw [same]
  · simp [wasHead, nowMark]

end Marked

variable {address : Nat} {block : Nat}

namespace MpStateMem

variable {first second : MpStateMem}

theorem tailWalk_congr
    (same : ∀ entry, first.atbGetKind entry = .tail ↔ second.atbGetKind entry = .tail)
    (fuel entry : Nat) : first.tailWalk fuel entry = second.tailWalk fuel entry := by
  induction fuel generalizing entry with
  | zero => rfl
  | succ fuel ih => simp [tailWalk, same, ih]

theorem loadWord_congr (same : ∀ offset < config.bytesPerWord,
      first.memory (address + offset) = second.memory (address + offset)) :
    first.loadWord config address = second.loadWord config address := by
  unfold loadWord
  have step : ∀ offsets : List Nat, (∀ offset ∈ offsets, offset < config.bytesPerWord) →
      offsets.foldr (fun offset high => (first.memory (address + offset)).toNat + 256 * high) 0 =
        offsets.foldr
          (fun offset high => (second.memory (address + offset)).toNat + 256 * high) 0 := by
    intro offsets within
    induction offsets with
    | nil => rfl
    | cons offset rest ih =>
      simp only [foldr_cons]
      rw [same offset (within offset mem_cons_self),
        ih fun other member => within other (mem_cons_of_mem _ member)]
  exact step _ fun offset member => mem_range.mp member

/-- The block a word points at, if it passes `VERIFY_PTR`. -/
def wordBlock (config : Config) (state : MpStateMem) (ptr : Nat) : Option Nat :=
  if state.verifyPtr config ptr then some (state.blockFromPtr config ptr) else none

variable {state : MpStateMem}

theorem wordBlock_lt (valid : state.layout.Valid config) {ptr block : Nat}
    (points : state.wordBlock config ptr = some block) : block < state.blocks := by
  unfold wordBlock at points
  split at points
  · next verified =>
    rw [← some.inj points]
    exact blockFromPtr_lt valid verified
  · cases points

/-- The blocks the words of a chain point at, as far as the walk counts the chain. -/
def children (config : Config) (state : MpStateMem) (block : Nat) : List Nat :=
  (state.chainWordAddresses config block).filterMap fun address =>
    state.wordBlock config (state.loadWord config address)

theorem children_congr (layout : first.layout = second.layout)
    (memory : first.memory = second.memory) : first.children config = second.children config := by
  have kinds : ∀ entry, first.atbGetKind entry = second.atbGetKind entry := fun entry =>
    kind_congr (by rw [atbAddress, atbAddress, layout, memory])
  have walks : first.tailWalk = second.tailWalk := by
    funext fuel entry
    exact tailWalk_congr (fun entry => by rw [kinds]) fuel entry
  funext block
  unfold children chainWordAddresses chainLength chainReads ptrFromBlock loadWord wordBlock
    verifyPtr blockFromPtr
  rw [walks, layout, memory]

/-- The unmarked heads of the table. -/
def heads (state : MpStateMem) : Finset Nat :=
  (Finset.range state.blocks).filter fun block => state.atbGetKind block = .head

theorem mem_heads :
    block ∈ state.heads ↔ block < state.blocks ∧ state.atbGetKind block = .head := by
  simp [heads]

theorem poolStart_le_of_mem {block address : Nat}
    (member : address ∈ state.chainWordAddresses config block) :
    state.layout.poolStart ≤ address := by
  obtain ⟨index, _, rfl⟩ := mem_map.mp member
  simp only [ptrFromBlock]
  omega

end MpStateMem

namespace Marked

variable {before after : MpStateMem}

theorem wordBlock (marked : Marked before after) :
    after.wordBlock config = before.wordBlock config := by
  funext ptr
  unfold MpStateMem.wordBlock MpStateMem.verifyPtr MpStateMem.blockFromPtr
  rw [marked.layout]

theorem chainWordAddresses (marked : Marked before after) (block : Nat) :
    after.chainWordAddresses config block = before.chainWordAddresses config block := by
  simp only [MpStateMem.chainWordAddresses, MpStateMem.chainLength, MpStateMem.chainReads,
    MpStateMem.tailWalk_congr marked.tail_iff, MpStateMem.ptrFromBlock, marked.layout]

theorem loadWord (marked : Marked before after) (valid : before.layout.Valid config)
    (above : before.layout.poolStart ≤ address) :
    after.loadWord config address = before.loadWord config address := by
  apply MpStateMem.loadWord_congr
  intro offset _
  have below := valid.tableBelowPool
  exact marked.outside _ (by omega)

end Marked

/-- The marking state that a heap and a stack of blocks represent. -/
def markingState (progress : MpStateMem × List Nat) : Marking.State Nat :=
  ⟨progress.1.heads, progress.2, progress.1.gcStackOverflow⟩

theorem headToMark_marked {state : MpStateMem} (inside : block < state.blocks)
    (isHead : state.atbGetKind block = .head) : Marked state (state.atbHeadToMark block) where
  frame := rfl
  outside := by
    intro address out
    apply state.store_memory_other
    have below := state.atbAddress_lt inside
    have above : state.layout.allocTableStart ≤ state.atbAddress block := Nat.le_add_right _ _
    omega
  kinds := by
    intro other
    rw [state.kind_headToMark]
    split
    · next same => exact .inr ⟨same ▸ isHead, rfl⟩
    · exact .inl rfl

theorem headToMark_heads (state : MpStateMem) (block : Nat) :
    (state.atbHeadToMark block).heads = state.heads.erase block := by
  ext other
  rw [Finset.mem_erase, MpStateMem.mem_heads, MpStateMem.mem_heads, state.kind_headToMark]
  change (other < state.blocks ∧ _) ↔ _
  by_cases same : other = block <;> simp [same]

theorem overflow_marked (state : MpStateMem) (flag : Bool) :
    Marked state { state with gcStackOverflow := flag } where
  frame := rfl
  outside := fun _ _ => rfl
  kinds := fun _ => .inl rfl

/-! ## Simulation -/

section Simulation

variable {base : MpStateMem} (valid : base.layout.Valid config)

include valid

/-- Checking one word offers the block it points at. -/
theorem gcMarkWord_simulates {progress : MpStateMem × List Nat} (marked : Marked base progress.1)
    (above : base.layout.poolStart ≤ address) :
    Marked base (gcMarkWord config progress address).1 ∧
      markingState (gcMarkWord config progress address) =
        Marking.offerAll config.allocGcStackSize (markingState progress)
          (base.wordBlock config (base.loadWord config address)).toList := by
  obtain ⟨state, stack⟩ := progress
  have stateValid : state.layout.Valid config := marked.layout ▸ valid
  rw [← marked.loadWord valid above, ← marked.wordBlock]
  simp only [gcMarkWord, MpStateMem.wordBlock]
  by_cases verified : state.verifyPtr config (state.loadWord config address) = true
  · have inside := MpStateMem.blockFromPtr_lt stateValid verified
    simp only [verified, if_true, toList_some, Marking.offerAll, foldl_cons,
      foldl_nil]
    generalize state.blockFromPtr config (state.loadWord config address) = block at inside ⊢
    by_cases isHead : state.atbGetKind block = .head
    · have white : block ∈ state.heads := MpStateMem.mem_heads.mpr ⟨inside, isHead⟩
      have step := headToMark_marked inside isHead
      have shrunk := headToMark_heads state block
      by_cases room : stack.length < config.allocGcStackSize
      · simp only [isHead, room, if_true]
        refine ⟨marked.trans step, ?_⟩
        simp only [Marking.offer, markingState, white, room, if_true, shrunk]
        rfl
      · simp only [isHead, room, if_true, if_false]
        refine ⟨marked.trans (step.trans (overflow_marked _ true)), ?_⟩
        simp only [Marking.offer, markingState, white, room, if_true, if_false, ← shrunk]
        rfl
    · have black : block ∉ state.heads := fun white => isHead (MpStateMem.mem_heads.mp white).2
      simp only [isHead, if_false]
      refine ⟨marked, ?_⟩
      simp only [Marking.offer, markingState, black, if_false]
  · simp only [verified]
    exact ⟨marked, rfl⟩

theorem gcMarkWords_simulates (addresses : List Nat)
    (above : ∀ address ∈ addresses, base.layout.poolStart ≤ address)
    (progress : MpStateMem × List Nat) (marked : Marked base progress.1) :
    Marked base (addresses.foldl (gcMarkWord config) progress).1 ∧
      markingState (addresses.foldl (gcMarkWord config) progress) =
        Marking.offerAll config.allocGcStackSize (markingState progress)
          (addresses.filterMap fun address =>
            base.wordBlock config (base.loadWord config address)) := by
  induction addresses generalizing progress with
  | nil => exact ⟨marked, rfl⟩
  | cons address rest ih =>
    obtain ⟨stepMarked, stepEq⟩ := gcMarkWord_simulates valid marked
      (above address mem_cons_self)
    obtain ⟨restMarked, restEq⟩ := ih
      (fun other member => above other (mem_cons_of_mem _ member)) _ stepMarked
    refine ⟨restMarked, restEq.trans ?_⟩
    rw [stepEq]
    cases found : base.wordBlock config (base.loadWord config address) with
    | none => simp [Marking.offerAll, found]
    | some block => simp [Marking.offerAll, found]

variable {state : MpStateMem}

theorem gcMarkSubtreeLoop_simulates (fuel : Nat) (stack : List Nat) (block : Nat)
    (marked : Marked base state) :
    (gcMarkSubtreeLoop config fuel state stack block).map (fun final => markingState (final, [])) =
        Marking.drain (base.children config) config.allocGcStackSize fuel
          (markingState (state, stack)) block ∧
      ∀ final, gcMarkSubtreeLoop config fuel state stack block = some final →
        Marked base final := by
  induction fuel generalizing state stack block with
  | zero => exact ⟨rfl, by simp [gcMarkSubtreeLoop]⟩
  | succ fuel ih =>
    have addresses : state.chainWordAddresses config block = base.chainWordAddresses config block :=
      marked.chainWordAddresses block
    obtain ⟨scannedMarked, scannedEq⟩ := gcMarkWords_simulates valid
      (base.chainWordAddresses config block)
      (fun _ member => MpStateMem.poolStart_le_of_mem member) (state, stack) marked
    simp only [gcMarkSubtreeLoop, Marking.drain, addresses, MpStateMem.children, ← scannedEq]
    generalize (base.chainWordAddresses config block).foldl (gcMarkWord config) (state, stack) =
      scanned at scannedMarked
    obtain ⟨scannedState, scannedStack⟩ := scanned
    cases scannedStack with
    | nil =>
      refine ⟨rfl, ?_⟩
      rintro final ⟨⟩
      exact scannedMarked
    | cons next rest => exact ih rest next scannedMarked

theorem gcCollectRootPtr_simulates (ptr : Nat) (marked : Marked base state) :
    (gcCollectRootPtr config state ptr).map (fun final => markingState (final, [])) =
        (base.wordBlock config ptr).toList.foldlM
          (Marking.trace (base.children config) config.allocGcStackSize (base.blocks + 1))
          (markingState (state, [])) ∧
      ∀ final, gcCollectRootPtr config state ptr = some final → Marked base final := by
  have stateValid : state.layout.Valid config := marked.layout ▸ valid
  rw [← marked.wordBlock]
  simp only [gcCollectRootPtr, MpStateMem.wordBlock]
  by_cases verified : state.verifyPtr config ptr = true
  · have inside := MpStateMem.blockFromPtr_lt stateValid verified
    simp only [verified, if_true, toList_some, foldlM_cons, foldlM_nil, bind_pure]
    generalize state.blockFromPtr config ptr = block at inside ⊢
    by_cases isHead : state.atbGetKind block = .head
    · have white : block ∈ state.heads := MpStateMem.mem_heads.mpr ⟨inside, isHead⟩
      have step := marked.trans (headToMark_marked inside isHead)
      have loop := gcMarkSubtreeLoop_simulates valid (base.blocks + 1) [] block step
      simp only [isHead, if_true, gcMarkSubtree, step.blocks]
      refine ⟨?_, loop.2⟩
      rw [loop.1]
      simp only [Marking.trace, markingState, white, if_true, headToMark_heads]
      rfl
    · have black : block ∉ state.heads := fun white => isHead (MpStateMem.mem_heads.mp white).2
      simp only [isHead, if_false]
      refine ⟨?_, fun final same => by cases same; exact marked⟩
      simp only [Marking.trace, markingState, black, if_false]
      rfl
  · simp only [verified]
    exact ⟨rfl, fun final same => by cases same; exact marked⟩

section

variable (unmarked : ∀ block < base.blocks, base.atbGetKind block ≠ .mark)

include unmarked

variable {state : MpStateMem}

theorem gcRetrace_simulates (inside : block < base.blocks) (marked : Marked base state) :
    (gcRetrace config state block).map (fun final => markingState (final, [])) =
        [block].foldlM
          (Marking.retrace base.heads (base.children config) config.allocGcStackSize
            (base.blocks + 1)) (markingState (state, [])) ∧
      ∀ final, gcRetrace config state block = some final → Marked base final := by
  have isMark : state.atbGetKind block = .mark ↔ block ∈ base.heads ∧ block ∉ state.heads := by
    rw [MpStateMem.mem_heads, MpStateMem.mem_heads, marked.blocks]
    rcases marked.kinds block with same | ⟨wasHead, nowMark⟩
    · have := unmarked block inside
      rw [same]
      simp [this]
    · simp [wasHead, nowMark, inside]
  simp only [foldlM_cons, foldlM_nil, bind_pure, gcRetrace, Marking.retrace, markingState]
  by_cases marks : state.atbGetKind block = .mark
  · have loop := gcMarkSubtreeLoop_simulates valid (base.blocks + 1) [] block marked
    simp only [isMark.mp marks, marks, if_true, gcMarkSubtree, marked.blocks, not_false_eq_true,
      and_self]
    exact loop
  · have other : ¬ (block ∈ base.heads ∧ block ∉ state.heads) := fun both => marks (isMark.mpr both)
    simp only [marks, other, if_false]
    exact ⟨rfl, fun final same => by cases same; exact marked⟩

/-- The rescans of `gc_deal_with_stack_overflow` settle the marking. -/
theorem gcDealWithStackOverflowLoop_simulates (passes : Nat) (marked : Marked base state) :
    (gcDealWithStackOverflowLoop config passes state).map (fun final => markingState (final, [])) =
        Marking.settle base.heads (List.range base.blocks) (base.children config)
          config.allocGcStackSize (base.blocks + 1) passes (markingState (state, [])) ∧
      ∀ final, gcDealWithStackOverflowLoop config passes state = some final →
        Marked base final := by
  induction passes generalizing state with
  | zero => exact ⟨rfl, by simp [gcDealWithStackOverflowLoop]⟩
  | succ passes ih =>
    by_cases flagged : state.gcStackOverflow = true
    · have pass := foldlM_simulates (fun final => markingState (final, [])) (fun block => [block])
        (Marked base) (range base.blocks)
        (fun block member _ here =>
          gcRetrace_simulates valid unmarked (mem_range.mp member) here)
        (marked.trans (overflow_marked state false))
      rw [flatMap_singleton'] at pass
      obtain ⟨passEq, passMarked⟩ := pass
      have restart : markingState ({ state with gcStackOverflow := false }, []) =
          { markingState (state, []) with overflow := false } := rfl
      rw [restart] at passEq
      have stateFlag : (markingState (state, [])).overflow = true := flagged
      simp only [gcDealWithStackOverflowLoop, Marking.settle, flagged, stateFlag, if_true,
        marked.blocks, ← passEq]
      cases taken : (range base.blocks).foldlM (gcRetrace config)
          { state with gcStackOverflow := false } with
      | none => exact ⟨rfl, by simp⟩
      | some next => exact ih (passMarked next taken)
    · have clear : (markingState (state, [])).overflow ≠ true := flagged
      simp only [gcDealWithStackOverflowLoop, Marking.settle, flagged, clear]
      exact ⟨rfl, fun final same => by cases same; exact marked⟩

/-- The mark phase ends with the flag clear, and what it has marked is what can be
reached from the root pointers. -/
theorem markPhase_exact (clear : base.gcStackOverflow = false) (ptrs : List Nat) :
    ∃ traced settled, gcCollectRoot config ptrs base = some traced ∧
      gcDealWithStackOverflow config traced = some settled ∧ Marked base settled ∧
      settled.gcStackOverflow = false ∧
      ∀ block < base.blocks, settled.atbGetKind block = .mark ↔
        Marking.Reach base.heads (base.children config)
          (ptrs.flatMap fun ptr => (base.wordBlock config ptr).toList) block := by
  have few : base.heads.card ≤ base.blocks := by
    simpa [MpStateMem.heads] using Finset.card_filter_le (Finset.range base.blocks) _
  obtain ⟨tracedState, finalState, tracedEq, finalEq, finalClear, _, exactly⟩ :=
    Marking.mark_exact base.heads (range base.blocks) (base.children config)
      config.allocGcStackSize (ptrs.flatMap fun ptr => (base.wordBlock config ptr).toList)
      (fun node member => mem_range.mpr (MpStateMem.mem_heads.mp member).1)
      (show base.heads.card < base.blocks + 1 by omega)
      (show base.heads.card + 1 < base.blocks + 2 by omega)
  have start : markingState (base, []) = ⟨base.heads, [], false⟩ := by
    simp only [markingState, clear]
  obtain ⟨rootsEq, rootsMarked⟩ := foldlM_simulates
    (fun final => markingState (final, [])) (fun ptr => (base.wordBlock config ptr).toList)
    (Marked base) ptrs
    (fun ptr _ _ here => gcCollectRootPtr_simulates valid ptr here) (Marked.refl base)
  rw [start, tracedEq] at rootsEq
  obtain ⟨traced, tracedRun, tracedSame⟩ := map_eq_some_iff.mp rootsEq
  have tracedMarked := rootsMarked traced tracedRun
  obtain ⟨settleEq, settleMarked⟩ := gcDealWithStackOverflowLoop_simulates valid unmarked
    (base.blocks + 2) tracedMarked
  rw [tracedSame, finalEq] at settleEq
  obtain ⟨settled, settledRun, settledSame⟩ := map_eq_some_iff.mp settleEq
  have settledMarked := settleMarked settled settledRun
  have whites : settled.heads = finalState.white := congrArg Marking.State.white settledSame
  refine ⟨traced, settled, tracedRun, ?_, settledMarked, ?_, ?_⟩
  · rw [gcDealWithStackOverflow, tracedMarked.blocks]
    exact settledRun
  · exact (congrArg Marking.State.overflow settledSame).trans finalClear
  · intro block inside
    have notMark := unmarked block inside
    by_cases isHead : block ∈ base.heads
    · rw [← exactly block isHead, ← whites, MpStateMem.mem_heads, settledMarked.blocks]
      have wasHead := (MpStateMem.mem_heads.mp isHead).2
      rcases settledMarked.kinds block with same | ⟨_, nowMark⟩
      · simp [same, wasHead, inside]
      · simp [nowMark]
    · refine iff_of_false ?_ fun reach => isHead reach.member
      rcases settledMarked.kinds block with same | ⟨wasHead, _⟩
      · rw [same]
        exact notMark
      · exact absurd (MpStateMem.mem_heads.mpr ⟨inside, wasHead⟩) isHead

end

end Simulation

end MultiPython.Heap
