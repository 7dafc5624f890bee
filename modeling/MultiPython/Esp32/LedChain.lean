import MultiPython.Logic.Run

/-!
# The memory of a chain of LEDs

`modadd_ctrl_recompute_fixtures` and the functions that append fixtures to a controller and remove
them. All fixtures of a controller share one block of DMA memory; a recomputation gives the block
back only if it is too small, and gets a new one in any case. A function that goes through a null
pointer, or past the table of protocols, has no result.
-/

namespace MultiPython.Esp32

open Logic List Option Function

/-- `modadd_protocol_t`. -/
structure ModaddProtocol where
  bpl : Nat
  orMask : List Nat
  numLeadingRate : Nat
  numLeadingConst : Nat
  numTrailingRate : Nat
  numTrailingConst : Nat
deriving DecidableEq

def modaddProtocolApa102 : ModaddProtocol where
  bpl := 4
  orMask := [0xE0, 0x00, 0x00, 0x00]
  numLeadingRate := 0
  numLeadingConst := 4
  numTrailingRate := 16
  numTrailingConst := 0

def modaddProtocolWs2812 : ModaddProtocol where
  bpl := 3
  orMask := [0x00, 0x00, 0x00]
  numLeadingRate := 0
  numLeadingConst := 5
  numTrailingRate := 0
  numTrailingConst := 0

def modaddProtocols : List ModaddProtocol := [modaddProtocolApa102, modaddProtocolWs2812]

def modaddProtocolUnknown : Nat := 3

/-- What the controllers use of `addressable_fixture_obj_t`. Pointers are addresses. -/
structure AddressableFixture (γ : Type*) where
  protocol : Nat
  leds : Nat
  ctrl : Option γ
  outData : Nat

/-- What is used of `modadd_ctrl_t`: `output.protocol` and `fixture_ctrl`, where the linked list of
nodes is the list of their fixtures. -/
structure ModaddCtrl (φ : Type*) where
  protocol : Nat
  chain : List φ
  data : Nat
  dataLen : Nat

/-- Controllers and fixtures, and the memory that the controllers share: the sizes of the blocks that
are allocated, the bytes, and whether a block has been released that was not allocated. -/
structure LedChains (γ φ : Type*) where
  ctrls : γ → ModaddCtrl φ
  fixtures : φ → AddressableFixture γ
  heap : Nat → Option Nat
  memory : Nat → Nat
  releasedTwice : Bool

/-- Any behaviour of `heap_caps_malloc`. -/
structure DmaAllocator where
  malloc : (Nat → Option Nat) → Nat → Option Nat
  fresh : ∀ {heap size block}, malloc heap size = some block →
    block ≠ 0 ∧ heap block = none ∧ block + size < 2 ^ 32

variable {γ φ : Type*} [DecidableEq γ] [DecidableEq φ]

/-! ## Recomputation -/

def LedChains.modaddFree (s : LedChains γ φ) (block : Nat) : LedChains γ φ :=
  match s.heap block with
  | none => { s with releasedTwice := true }
  | some _ => { s with heap := Function.update s.heap block none }

/-- The loop of `modadd_fixture_count_leds`: the LEDs of a chain, and whether all fixtures have the
protocol. -/
def LedChains.modaddFixtureCountLeds (s : LedChains γ φ) (protocol : ModaddProtocol) :
    List φ → Nat → Bool → Option (Nat × Bool)
  | [], totalLeds, protocolOk => some (totalLeds, protocolOk)
  | ref :: chain, totalLeds, protocolOk =>
    let fixture := s.fixtures ref
    match modaddProtocols[fixture.protocol]? with
    | none => none
    | some own => s.modaddFixtureCountLeds protocol chain ((totalLeds + fixture.leds) % 2 ^ 32)
        (protocolOk && own == protocol)

/-- The loop of `modadd_fixture_recomputation`. -/
def modaddFixtureRecomputation (ctrl : γ) (protocol : ModaddProtocol) :
    List φ → Nat → (φ → AddressableFixture γ) → φ → AddressableFixture γ
  | [], _, fixtures => fixtures
  | ref :: chain, data, fixtures =>
    let fixture := fixtures ref
    modaddFixtureRecomputation ctrl protocol chain
      ((data + fixture.leds * protocol.bpl % 2 ^ 32) % 2 ^ 32)
      (Function.update fixtures ref { fixture with ctrl := some ctrl, outData := data })

/-- The bytes before the fixtures of a chain. -/
def ModaddProtocol.startupBytes (protocol : ModaddProtocol) (totalLeds : Nat) : Nat :=
  if protocol.numLeadingRate = 0 then protocol.numLeadingConst
  else (totalLeds / protocol.numLeadingRate + protocol.numLeadingConst) % 2 ^ 32

/-- The bytes after them. -/
def ModaddProtocol.shutdownBytes (protocol : ModaddProtocol) (totalLeds : Nat) : Nat :=
  if protocol.numTrailingRate = 0 then protocol.numTrailingConst
  else (totalLeds / protocol.numTrailingRate + protocol.numTrailingConst) % 2 ^ 32

def ModaddProtocol.lengthRequired (protocol : ModaddProtocol) (totalLeds : Nat) : Nat :=
  (totalLeds * protocol.bpl + protocol.startupBytes totalLeds + protocol.shutdownBytes totalLeds) %
    2 ^ 32

/-- Clear the new block, and set the mask of the protocol in the bytes of each LED. -/
def maskedMemory (memory : Nat → Nat) (data lengthRequired startupBytes totalLeds : Nat)
    (protocol : ModaddProtocol) (address : Nat) : Nat :=
  let base := data + startupBytes
  let cleared := if data ≤ address ∧ address < data + lengthRequired then 0 else memory address
  if base ≤ address ∧ address < base + totalLeds * protocol.bpl then
    cleared ||| protocol.orMask.getD ((address - base) % protocol.bpl) 0
  else cleared

/-- How a recomputation ends. -/
inductive RecomputeStatus where
  | protocolFailure
  | noMemoryRequired
  | allocationFailed
  | completed
deriving DecidableEq, Repr

def LedChains.modaddCtrlRecomputeFixtures (s : LedChains γ φ) (ref : γ) (allocator : DmaAllocator) :
    Option (LedChains γ φ × RecomputeStatus) :=
  let ctrl := s.ctrls ref
  match modaddProtocols[ctrl.protocol]? with
  | none => none
  | some protocol =>
    match s.modaddFixtureCountLeds protocol ctrl.chain 0 true with
    | none => none
    | some (totalLeds, protocolOk) =>
      if protocolOk ≠ true then some (s, .protocolFailure)
      else
        let startupBytes := protocol.startupBytes totalLeds
        let lengthRequired := protocol.lengthRequired totalLeds
        let s := if ctrl.data ≠ 0 ∧ ctrl.dataLen < lengthRequired then s.modaddFree ctrl.data
          else s
        if lengthRequired = 0 then some (s, .noMemoryRequired)
        else
          match allocator.malloc s.heap lengthRequired with
          | none => some (s, .allocationFailed)
          | some data =>
            some ({ s with
              heap := Function.update s.heap data (some lengthRequired)
              ctrls := Function.update s.ctrls ref
                { ctrl with data := data, dataLen := lengthRequired }
              fixtures := modaddFixtureRecomputation ref protocol ctrl.chain
                (data + startupBytes) s.fixtures
              memory := maskedMemory s.memory data lengthRequired startupBytes totalLeds
                protocol }, .completed)

/-! ## Appending and removing -/

/-- Give a controller another list of nodes. -/
def LedChains.withChain (s : LedChains γ φ) (ref : γ) (chain : List φ) : LedChains γ φ :=
  { s with ctrls := Function.update s.ctrls ref { s.ctrls ref with chain := chain } }

/-- `modadd_fixture_append`; there may be no memory for the node. -/
def LedChains.modaddFixtureAppend (s : LedChains γ φ) (fixture : φ) (ref : γ) (room : Bool) :
    LedChains γ φ :=
  if room then s.withChain ref ((s.ctrls ref).chain ++ [fixture]) else s

/-- `modadd_fixture_remove`. The first node has no predecessor, so it stays; the chain is recomputed
for the controller that the first fixture knows. The status of the recomputation comes with that
controller. -/
def LedChains.modaddFixtureRemove (s : LedChains γ φ) (fixture : φ) (ref : γ)
    (allocator : DmaAllocator) : Option (LedChains γ φ × Option (γ × RecomputeStatus)) :=
  match (s.ctrls ref).chain with
  | [] => some (s, none)
  | base :: rest =>
    if base = fixture then some (s, none)
    else if fixture ∉ rest then none
    else
      let s := s.withChain ref (base :: rest.erase fixture)
      match (s.fixtures base).ctrl with
      | none => none
      | some known => (s.modaddCtrlRecomputeFixtures known allocator).map
          fun (s, status) => (s, some (known, status))

/-- What may be done to the controllers. -/
inductive ChainEvent (γ φ : Type*) where
  | append (fixture : φ) (ref : γ) (room : Bool)
  | remove (fixture : φ) (ref : γ) (allocator : DmaAllocator)
  | recompute (ref : γ) (allocator : DmaAllocator)

/-- Do it, and say which controller has been recomputed, and how that ended. -/
def LedChains.perform (s : LedChains γ φ) :
    ChainEvent γ φ → Option (LedChains γ φ × Option (γ × RecomputeStatus))
  | .append fixture ref room => some (s.modaddFixtureAppend fixture ref room, none)
  | .remove fixture ref allocator => s.modaddFixtureRemove fixture ref allocator
  | .recompute ref allocator => (s.modaddCtrlRecomputeFixtures ref allocator).map
      fun (s, status) => (s, some (ref, status))

/-- A step of the controllers. -/
def ChainStep (s : LedChains γ φ) (event : ChainEvent γ φ) (next : LedChains γ φ) : Prop :=
  (s.perform event).map Prod.fst = some next

/-- Controllers as they are at first, without fixtures and memory. -/
structure LedChains.Fresh (s : LedChains γ φ) : Prop where
  chain : ∀ ref, (s.ctrls ref).chain = []
  data : ∀ ref, (s.ctrls ref).data = 0
  heap : ∀ block, s.heap block = none
  releasedTwice : s.releasedTwice = false

/-! ## The block of a controller -/

/-- Each controller has no block or an allocated block of its own with exactly its number of bytes,
no other block is allocated, and none has been released twice. -/
structure LedChains.Sound (s : LedChains γ φ) : Prop where
  data : ∀ ref, (s.ctrls ref).data = 0 ∨
    s.heap (s.ctrls ref).data = some (s.ctrls ref).dataLen
  notLeaked : ∀ block, s.heap block ≠ none → block ≠ 0 ∧ ∃ ref, (s.ctrls ref).data = block
  notShared : ∀ ref other, (s.ctrls ref).data = (s.ctrls other).data → (s.ctrls ref).data ≠ 0 →
    ref = other
  notReleasedTwice : s.releasedTwice = false

/-- A recomputation keeps the memory sound: if the controller has a block and needs one, it gets a
new one exactly if the old one is too small. -/
def LedChains.Replaces (s : LedChains γ φ) (ref : γ) (allocator : DmaAllocator) : Prop :=
  ∀ protocol, modaddProtocols[(s.ctrls ref).protocol]? = some protocol →
    ∀ totalLeds, s.modaddFixtureCountLeds protocol (s.ctrls ref).chain 0 true =
        some (totalLeds, true) →
      (s.ctrls ref).data = 0 ∨ protocol.lengthRequired totalLeds = 0 ∨
        if (s.ctrls ref).dataLen < protocol.lengthRequired totalLeds then
          allocator.malloc (Function.update s.heap (s.ctrls ref).data none)
            (protocol.lengthRequired totalLeds) ≠ none
        else allocator.malloc s.heap (protocol.lengthRequired totalLeds) = none

/-- An event keeps the memory sound. -/
def LedChains.KeepsMemory (s : LedChains γ φ) : ChainEvent γ φ → Prop
  | .append _ _ _ => True
  | .recompute ref allocator => s.Replaces ref allocator
  | .remove fixture ref allocator =>
    ∀ base ∈ (s.ctrls ref).chain.head?, base ≠ fixture → ∀ known ∈ (s.fixtures base).ctrl,
      (s.withChain ref ((s.ctrls ref).chain.erase fixture)).Replaces known allocator

section Sound

variable {s next : LedChains γ φ} {ref : γ} {allocator : DmaAllocator} {status : RecomputeStatus}

omit [DecidableEq φ] in
@[simp]
theorem withChain_heap (chain : List φ) : (s.withChain ref chain).heap = s.heap := rfl

omit [DecidableEq φ] in
@[simp]
theorem withChain_fixtures (chain : List φ) : (s.withChain ref chain).fixtures = s.fixtures := rfl

omit [DecidableEq φ] in
@[simp]
theorem withChain_data (chain : List φ) (other : γ) :
    ((s.withChain ref chain).ctrls other).data = (s.ctrls other).data := by
  rcases eq_or_ne other ref with rfl | different
  · simp [LedChains.withChain]
  · simp [LedChains.withChain, update_of_ne different]

omit [DecidableEq φ] in
@[simp]
theorem withChain_dataLen (chain : List φ) (other : γ) :
    ((s.withChain ref chain).ctrls other).dataLen = (s.ctrls other).dataLen := by
  rcases eq_or_ne other ref with rfl | different
  · simp [LedChains.withChain]
  · simp [LedChains.withChain, update_of_ne different]

omit [DecidableEq φ] in
/-- The fixtures of a chain do not matter to its block. -/
theorem LedChains.Sound.withChain (sound : s.Sound) (chain : List φ) :
    (s.withChain ref chain).Sound where
  data other := by simpa using sound.data other
  notLeaked block isAllocated := by simpa using sound.notLeaked block isAllocated
  notShared one other same notNull := by
    simp only [withChain_data] at same notNull
    exact sound.notShared one other same notNull
  notReleasedTwice := sound.notReleasedTwice

/-- What a recomputation does, for each way it ends. -/
theorem recomputeFixtures_cases
    (comes : s.modaddCtrlRecomputeFixtures ref allocator = some (next, status)) :
    ∃ protocol totalLeds protocolOk,
      modaddProtocols[(s.ctrls ref).protocol]? = some protocol ∧
      s.modaddFixtureCountLeds protocol (s.ctrls ref).chain 0 true =
        some (totalLeds, protocolOk) ∧
      let room := if (s.ctrls ref).data ≠ 0 ∧
          (s.ctrls ref).dataLen < protocol.lengthRequired totalLeds
        then s.modaddFree (s.ctrls ref).data else s
      (protocolOk = false ∧ status = .protocolFailure ∧ next = s) ∨
      (protocolOk = true ∧ status = .noMemoryRequired ∧ next = s ∧
        protocol.lengthRequired totalLeds = 0) ∨
      (protocolOk = true ∧ status = .allocationFailed ∧ next = room ∧
        protocol.lengthRequired totalLeds ≠ 0 ∧
        allocator.malloc room.heap (protocol.lengthRequired totalLeds) = none) ∨
      ∃ data, protocolOk = true ∧ status = .completed ∧
        protocol.lengthRequired totalLeds ≠ 0 ∧
        allocator.malloc room.heap (protocol.lengthRequired totalLeds) = some data ∧
        next = { room with
          heap := Function.update room.heap data (some (protocol.lengthRequired totalLeds))
          ctrls := Function.update room.ctrls ref
            { s.ctrls ref with data := data, dataLen := protocol.lengthRequired totalLeds }
          fixtures := modaddFixtureRecomputation ref protocol (s.ctrls ref).chain
            (data + protocol.startupBytes totalLeds) room.fixtures
          memory := maskedMemory room.memory data (protocol.lengthRequired totalLeds)
            (protocol.startupBytes totalLeds) totalLeds protocol } := by
  unfold LedChains.modaddCtrlRecomputeFixtures at comes
  dsimp only at comes
  split at comes
  · cases comes
  rename_i protocol isProtocol
  split at comes
  · cases comes
  rename_i totalLeds protocolOk counted
  refine ⟨protocol, totalLeds, protocolOk, isProtocol, counted, ?_⟩
  dsimp only
  generalize isRoom : (if (s.ctrls ref).data ≠ 0 ∧
    (s.ctrls ref).dataLen < protocol.lengthRequired totalLeds
    then s.modaddFree (s.ctrls ref).data else s) = room at comes ⊢
  split_ifs at comes with failed zero
  · cases comes
    exact .inl ⟨by simpa using failed, rfl, rfl⟩
  · cases comes
    rw [if_neg (by rw [zero]; exact fun both => Nat.not_lt_zero _ both.2)] at isRoom
    exact .inr (.inl ⟨by simpa using failed, rfl, isRoom.symm, zero⟩)
  · split at comes
    · rename_i noMemory
      cases comes
      exact .inr (.inr (.inl ⟨by simpa using failed, rfl, rfl, zero, noMemory⟩))
    · rename_i data isData
      cases comes
      exact .inr (.inr (.inr ⟨data, by simpa using failed, rfl, zero, isData, rfl⟩))

omit [DecidableEq γ] [DecidableEq φ] in
/-- The block of a controller is released once, as it is allocated. -/
theorem LedChains.Sound.modaddFree (sound : s.Sound) (notNull : (s.ctrls ref).data ≠ 0) :
    s.modaddFree (s.ctrls ref).data =
      { s with heap := Function.update s.heap (s.ctrls ref).data none } := by
  have allocated := (sound.data ref).resolve_left notNull
  simp [LedChains.modaddFree, allocated]

omit [DecidableEq φ] in
/-- A controller without a block, or whose block has been released, gets a new one. -/
theorem LedChains.Sound.replaced (sound : s.Sound) {heap : Nat → Option Nat}
    (released : ∀ block, heap block =
      if block = (s.ctrls ref).data ∧ block ≠ 0 then none else s.heap block)
    {data : Nat} (notNull : data ≠ 0) (fresh : heap data = none) {length : Nat}
    {fixtures : φ → AddressableFixture γ} {memory : Nat → Nat} :
    LedChains.Sound { s with
      heap := Function.update heap data (some length)
      ctrls := Function.update s.ctrls ref { s.ctrls ref with data := data, dataLen := length }
      fixtures := fixtures
      memory := memory } := by
  -- The blocks of the other controllers are still allocated, so the new one is none of them.
  have kept : ∀ other, other ≠ ref → (s.ctrls other).data = 0 ∨
      heap (s.ctrls other).data = some (s.ctrls other).dataLen := by
    intro other different
    rcases sound.data other with null | allocated
    · exact Or.inl null
    · rcases eq_or_ne (s.ctrls other).data 0 with null | otherNotNull
      · exact Or.inl null
      · rw [released, if_neg fun same =>
          different (sound.notShared other ref same.1 otherNotNull)]
        exact Or.inr allocated
  have different : ∀ other, other ≠ ref → (s.ctrls other).data ≠ data := by
    intro other notRef same
    rcases kept other notRef with null | allocated
    · exact notNull (same ▸ null)
    · rw [same, fresh] at allocated
      cases allocated
  refine ⟨fun other => ?_, fun block isAllocated => ?_, fun one other same oneNotNull => ?_,
    sound.notReleasedTwice⟩
  · rcases eq_or_ne other ref with rfl | notRef
    · exact Or.inr (by simp)
    · simp only [update_of_ne notRef, update_of_ne (different other notRef)]
      exact kept other notRef
  · rcases eq_or_ne block data with rfl | notData
    · exact ⟨notNull, ref, by simp⟩
    · simp only [update_of_ne notData, released] at isAllocated
      split_ifs at isAllocated with isOld
      · exact absurd rfl isAllocated
      · obtain ⟨blockNotNull, owner, owns⟩ := sound.notLeaked block isAllocated
        have notRef : owner ≠ ref := by
          rintro rfl
          exact isOld ⟨owns.symm, blockNotNull⟩
        exact ⟨blockNotNull, owner, by simpa only [update_of_ne notRef] using owns⟩
  · rcases eq_or_ne one ref with rfl | oneNotRef <;> rcases eq_or_ne other one with rfl | otherNotOne
    · rfl
    · simp only [update_self, update_of_ne otherNotOne] at same
      exact absurd same.symm (different other otherNotOne)
    · rfl
    · rcases eq_or_ne other ref with rfl | otherNotRef
      · simp only [update_self, update_of_ne oneNotRef] at same
        exact absurd same (different one oneNotRef)
      · simp only [update_of_ne oneNotRef, update_of_ne otherNotRef]
          at same oneNotNull
        exact sound.notShared one other same oneNotNull

/-- A recomputation keeps the memory sound exactly if it replaces a block that is too small, and no
other. -/
theorem recomputeFixtures_sound_iff (sound : s.Sound)
    (comes : s.modaddCtrlRecomputeFixtures ref allocator = some (next, status)) :
    next.Sound ↔ s.Replaces ref allocator := by
  obtain ⟨protocol, totalLeds, protocolOk, isProtocol, counted, ends⟩ :=
    recomputeFixtures_cases comes
  have replaces_iff : protocolOk = true → (s.Replaces ref allocator ↔
      ((s.ctrls ref).data = 0 ∨ protocol.lengthRequired totalLeds = 0 ∨
        if (s.ctrls ref).dataLen < protocol.lengthRequired totalLeds then
          allocator.malloc (Function.update s.heap (s.ctrls ref).data none)
            (protocol.lengthRequired totalLeds) ≠ none
        else allocator.malloc s.heap (protocol.lengthRequired totalLeds) = none)) := by
    rintro rfl
    constructor
    · exact fun replaces => replaces protocol isProtocol totalLeds counted
    · intro here other isOther otherLeds otherCounted
      obtain rfl := some.inj (isProtocol.symm.trans isOther)
      rw [counted] at otherCounted
      cases otherCounted
      exact here
  dsimp only at ends
  rcases ends with ⟨failed, -, rfl⟩ | ⟨fine, -, rfl, zero⟩ | ⟨fine, -, isNext, nonzero, noMemory⟩ |
    ⟨data, fine, -, nonzero, isData, isNext⟩
  · refine iff_of_true sound fun other isOther otherLeds otherCounted => ?_
    obtain rfl := some.inj (isProtocol.symm.trans isOther)
    rw [counted, failed] at otherCounted
    cases otherCounted
  · exact iff_of_true sound ((replaces_iff fine).mpr (.inr (.inl zero)))
  · rw [replaces_iff fine]
    by_cases small : (s.ctrls ref).data ≠ 0 ∧
        (s.ctrls ref).dataLen < protocol.lengthRequired totalLeds
    · -- The old block is gone, but the controller still points to it.
      rw [if_pos small, sound.modaddFree small.1] at noMemory isNext
      refine iff_of_false (fun nextSound => ?_) ?_
      · rcases nextSound.data ref with null | allocated
        · rw [isNext] at null
          exact small.1 null
        · rw [isNext] at allocated
          simp at allocated
      · rw [if_pos small.2]
        exact fun either => either.elim small.1 fun either => either.elim nonzero
          fun gets => gets noMemory
    · rw [if_neg small] at noMemory isNext
      rw [isNext]
      refine iff_of_true sound ?_
      rcases eq_or_ne (s.ctrls ref).data 0 with null | notNull
      · exact .inl null
      · rw [if_neg fun less => small ⟨notNull, less⟩]
        exact .inr (.inr noMemory)
  · rw [replaces_iff fine]
    obtain ⟨dataNotNull, fresh, -⟩ := allocator.fresh isData
    by_cases small : (s.ctrls ref).data ≠ 0 ∧
        (s.ctrls ref).dataLen < protocol.lengthRequired totalLeds
    · rw [if_pos small, sound.modaddFree small.1] at isData isNext fresh
      rw [isNext]
      refine iff_of_true (sound.replaced (fun block => ?_) dataNotNull fresh) ?_
      · by_cases isOld : block = (s.ctrls ref).data
        · rw [isOld, if_pos ⟨rfl, small.1⟩]
          exact update_self _ _ _
        · rw [if_neg fun both => isOld both.1]
          exact update_of_ne isOld _ _
      · rw [if_pos small.2, isData]
        exact .inr (.inr (some_ne_none data))
    · rw [if_neg small] at isData isNext fresh
      rw [isNext]
      rcases eq_or_ne (s.ctrls ref).data 0 with null | notNull
      · refine iff_of_true (sound.replaced (fun block => ?_) dataNotNull fresh) (.inl null)
        rw [if_neg fun both => both.2 (both.1.trans null)]
      · -- The old block is still allocated, but the controller has a new one.
        have large : ¬(s.ctrls ref).dataLen < protocol.lengthRequired totalLeds :=
          fun less => small ⟨notNull, less⟩
        have allocated := (sound.data ref).resolve_left notNull
        have different : (s.ctrls ref).data ≠ data := by
          intro same
          rw [same, fresh] at allocated
          cases allocated
        refine iff_of_false (fun nextSound => ?_) ?_
        · obtain ⟨-, owner, owns⟩ := nextSound.notLeaked (s.ctrls ref).data
            (by simp [update_of_ne different, allocated])
          rcases eq_or_ne owner ref with rfl | notRef
          · simp only [update_self] at owns
            exact different owns.symm
          · simp only [update_of_ne notRef] at owns
            exact notRef (sound.notShared owner ref owns (owns ▸ notNull))
        · rw [if_neg large, isData]
          exact fun either => either.elim notNull fun either => either.elim nonzero
            fun none => by cases none

theorem perform_sound_iff {event : ChainEvent γ φ} {done : Option (γ × RecomputeStatus)}
    (sound : s.Sound) (comes : s.perform event = some (next, done)) :
    next.Sound ↔ s.KeepsMemory event := by
  cases event with
  | append fixture ref room =>
    cases comes
    refine iff_of_true ?_ trivial
    cases room with
    | false => exact sound
    | true => exact sound.withChain _
  | recompute ref allocator =>
    obtain ⟨⟨after, status⟩, recomputed, same⟩ := map_eq_some_iff.mp comes
    cases same
    exact recomputeFixtures_sound_iff sound recomputed
  | remove fixture ref allocator =>
    simp only [LedChains.perform, LedChains.modaddFixtureRemove] at comes
    split at comes
    · rename_i none
      cases comes
      exact iff_of_true sound (by simp [LedChains.KeepsMemory, none])
    rename_i base rest isChain
    split_ifs at comes with first absent
    · cases comes
      exact iff_of_true sound (by simp [LedChains.KeepsMemory, isChain, first])
    split at comes
    · cases comes
    rename_i known isKnown
    obtain ⟨⟨after, status⟩, recomputed, same⟩ := map_eq_some_iff.mp comes
    cases same
    have erased : (s.ctrls ref).chain.erase fixture = base :: rest.erase fixture := by
      rw [isChain, erase_cons_tail (by simpa using first)]
    have recomputes := recomputeFixtures_sound_iff (sound.withChain _) recomputed
    rw [recomputes]
    simp only [LedChains.KeepsMemory, erased]
    constructor
    · intro replaces other isOther _ otherKnown isOtherKnown
      rw [isChain] at isOther
      cases isOther
      obtain rfl : known = otherKnown := some.inj (isKnown.symm.trans isOtherKnown)
      exact replaces
    · exact fun replaces => replaces base (by rw [isChain]; rfl) first known isKnown

end Sound

/-! ## The layout of a chain -/

/-- Ranges of addresses, each with its length, that follow one another from `start` to `stop`. -/
def Tiles : Nat → List (Nat × Nat) → Nat → Prop
  | start, [], stop => start = stop
  | start, range :: ranges, stop => range.1 = start ∧ Tiles (start + range.2) ranges stop

theorem Tiles.start_le {start stop : Nat} {ranges : List (Nat × Nat)}
    (tiles : Tiles start ranges stop) : ∀ range ∈ ranges, start ≤ range.1 := by
  induction ranges generalizing start with
  | nil => simp
  | cons first ranges ih =>
    intro range member
    rcases mem_cons.mp member with rfl | later
    · exact tiles.1.ge
    · exact (Nat.le_add_right _ _).trans (ih tiles.2 range later)

theorem Tiles.disjoint {start stop : Nat} {ranges : List (Nat × Nat)}
    (tiles : Tiles start ranges stop) :
    ranges.Pairwise fun first second => first.1 + first.2 ≤ second.1 := by
  induction ranges generalizing start with
  | nil => exact List.Pairwise.nil
  | cons first ranges ih =>
    refine List.Pairwise.cons (fun second member => ?_) (ih tiles.2)
    rw [tiles.1]
    exact tiles.2.start_le second member

/-- The LEDs of a chain. -/
def LedChains.totalLeds (s : LedChains γ φ) (chain : List φ) : Nat :=
  (chain.map fun ref => (s.fixtures ref).leds).sum

/-- The ranges that the fixtures of a chain write to. -/
def LedChains.ranges (s : LedChains γ φ) (protocol : ModaddProtocol) (chain : List φ) :
    List (Nat × Nat) :=
  chain.map fun ref => ((s.fixtures ref).outData, (s.fixtures ref).leds * protocol.bpl)

/-- The fixtures of a controller write to consecutive and disjoint ranges of its block, which begin
after the startup bytes and end where the shutdown bytes begin. -/
structure LedChains.LaidOut (s : LedChains γ φ) (ref : γ) (protocol : ModaddProtocol) : Prop where
  consecutive : Tiles
    ((s.ctrls ref).data + protocol.startupBytes (s.totalLeds (s.ctrls ref).chain))
    (s.ranges protocol (s.ctrls ref).chain)
    ((s.ctrls ref).data + protocol.startupBytes (s.totalLeds (s.ctrls ref).chain) +
      s.totalLeds (s.ctrls ref).chain * protocol.bpl)
  disjoint : (s.ranges protocol (s.ctrls ref).chain).Pairwise
    fun first second => first.1 + first.2 ≤ second.1
  inside : (s.ctrls ref).data + protocol.startupBytes (s.totalLeds (s.ctrls ref).chain) +
      s.totalLeds (s.ctrls ref).chain * protocol.bpl +
      protocol.shutdownBytes (s.totalLeds (s.ctrls ref).chain) =
    (s.ctrls ref).data + (s.ctrls ref).dataLen

/-- No fixture is twice in a chain, and the length of its block is a word. -/
def LedChains.Fits (s : LedChains γ φ) (ref : γ) (protocol : ModaddProtocol) : Prop :=
  let totalLeds := s.totalLeds (s.ctrls ref).chain
  (s.ctrls ref).chain.Nodup ∧ totalLeds < 2 ^ 32 ∧
    totalLeds * protocol.bpl + protocol.startupBytes totalLeds + protocol.shutdownBytes totalLeds <
      2 ^ 32

section Layout

variable {s next : LedChains γ φ} {ref : γ} {allocator : DmaAllocator} {protocol : ModaddProtocol}

omit [DecidableEq γ] [DecidableEq φ] in
/-- The loop counts modulo a word. -/
theorem fixtureCountLeds_spec {chain : List φ} {before totalLeds : Nat} {ok protocolOk : Bool}
    (small : before + s.totalLeds chain < 2 ^ 32)
    (counted : s.modaddFixtureCountLeds protocol chain before ok = some (totalLeds, protocolOk)) :
    totalLeds = before + s.totalLeds chain := by
  induction chain generalizing before ok with
  | nil =>
    cases counted
    rfl
  | cons first chain ih =>
    have total : s.totalLeds (first :: chain) = (s.fixtures first).leds + s.totalLeds chain :=
      List.sum_cons
    simp only [LedChains.modaddFixtureCountLeds] at counted
    split at counted
    · cases counted
    · rw [Nat.mod_eq_of_lt (by omega)] at counted
      have later := ih (by omega) counted
      omega

omit [DecidableEq γ] in
/-- The loop goes through the ranges one after the other. -/
theorem fixtureRecomputation_spec {chain : List φ} {data : Nat}
    {fixtures : φ → AddressableFixture γ} (distinct : chain.Nodup)
    (small : data + (chain.map fun ref => (fixtures ref).leds).sum * protocol.bpl < 2 ^ 32) :
    (∀ other ∉ chain, modaddFixtureRecomputation ref protocol chain data fixtures other =
        fixtures other) ∧
      (∀ other, (modaddFixtureRecomputation ref protocol chain data fixtures other).leds =
        (fixtures other).leds) ∧
      Tiles data
        (chain.map fun other =>
          ((modaddFixtureRecomputation ref protocol chain data fixtures other).outData,
            (fixtures other).leds * protocol.bpl))
        (data + (chain.map fun ref => (fixtures ref).leds).sum * protocol.bpl) := by
  induction chain generalizing data fixtures with
  | nil => simp [modaddFixtureRecomputation, Tiles]
  | cons first chain ih =>
    obtain ⟨notLater, distinctLater⟩ := nodup_cons.mp distinct
    let placed := Function.update fixtures first
      { fixtures first with ctrl := some ref, outData := data }
    have sameLeds : ∀ other, (placed other).leds = (fixtures other).leds := by
      intro other
      rcases eq_or_ne other first with rfl | different
      · simp [placed]
      · simp [placed, update_of_ne different]
    have total : (((first :: chain).map fun ref => (fixtures ref).leds).sum) * protocol.bpl =
        (fixtures first).leds * protocol.bpl +
          (chain.map fun ref => (fixtures ref).leds).sum * protocol.bpl := by
      rw [map_cons, List.sum_cons, Nat.add_mul]
    rw [total] at small ⊢
    have step : (data + (fixtures first).leds * protocol.bpl % 2 ^ 32) % 2 ^ 32 =
        data + (fixtures first).leds * protocol.bpl := by
      rw [Nat.mod_eq_of_lt (show (fixtures first).leds * protocol.bpl < 2 ^ 32 by omega),
        Nat.mod_eq_of_lt (by omega)]
    obtain ⟨others, leds, tiles⟩ := @ih
      (data + (fixtures first).leds * protocol.bpl) placed distinctLater
      (by simp only [sameLeds]; omega)
    simp only [sameLeds] at leds tiles
    simp only [modaddFixtureRecomputation, step]
    refine ⟨fun other absent => ?_, leds, ?_, ?_⟩
    · rw [mem_cons, not_or] at absent
      rw [others other absent.2]
      exact update_of_ne absent.1 _ _
    · show (modaddFixtureRecomputation ref protocol chain _ placed first).outData = data
      rw [others first notLater]
      simp [placed]
    · rw [← Nat.add_assoc]
      exact tiles

/-- After a recomputation that completes, the fixtures are laid out in the block. -/
theorem recomputeFixtures_laidOut
    (comes : s.modaddCtrlRecomputeFixtures ref allocator = some (next, .completed))
    (isProtocol : modaddProtocols[(s.ctrls ref).protocol]? = some protocol)
    (fits : s.Fits ref protocol) : next.LaidOut ref protocol := by
  obtain ⟨distinct, ledsSmall, lengthSmall⟩ := fits
  obtain ⟨other, totalLeds, protocolOk, isOther, counted, ends⟩ := recomputeFixtures_cases comes
  obtain rfl : protocol = other := some.inj (isProtocol.symm.trans isOther)
  dsimp only at ends
  rcases ends with ⟨-, failed, -⟩ | ⟨-, failed, -⟩ | ⟨-, failed, -⟩ | ⟨data, -, -, -, isData, isNext⟩
  · cases failed
  · cases failed
  · cases failed
  have roomFixtures : (if (s.ctrls ref).data ≠ 0 ∧
      (s.ctrls ref).dataLen < protocol.lengthRequired totalLeds
      then s.modaddFree (s.ctrls ref).data else s).fixtures = s.fixtures := by
    split_ifs
    · unfold LedChains.modaddFree
      split <;> rfl
    · rfl
  have total : totalLeds = s.totalLeds (s.ctrls ref).chain := by
    have counts := fixtureCountLeds_spec (by omega) counted
    omega
  have length : protocol.lengthRequired totalLeds = totalLeds * protocol.bpl +
      protocol.startupBytes totalLeds + protocol.shutdownBytes totalLeds := by
    rw [total]
    exact Nat.mod_eq_of_lt lengthSmall
  obtain ⟨-, -, ends⟩ := allocator.fresh isData
  rw [length] at ends
  obtain ⟨-, leds, tiles⟩ := @fixtureRecomputation_spec γ φ _ ref protocol (s.ctrls ref).chain
    (data + protocol.startupBytes totalLeds) s.fixtures distinct
    (by rw [total] at ends ⊢; simp only [LedChains.totalLeds] at ends ⊢; omega)
  have nextChain : (next.ctrls ref).chain = (s.ctrls ref).chain := by rw [isNext]; simp
  have nextData : (next.ctrls ref).data = data := by rw [isNext]; simp
  have nextLen : (next.ctrls ref).dataLen = protocol.lengthRequired totalLeds := by
    rw [isNext]; simp
  have nextFixtures : next.fixtures = modaddFixtureRecomputation ref protocol (s.ctrls ref).chain
      (data + protocol.startupBytes totalLeds) s.fixtures := by
    rw [isNext, ← roomFixtures]
  have nextLeds : ∀ other, (next.fixtures other).leds = (s.fixtures other).leds := by
    intro other
    rw [nextFixtures]
    exact leds other
  have nextTotal : next.totalLeds (s.ctrls ref).chain = totalLeds := by
    rw [total]
    simp only [LedChains.totalLeds, nextLeds]
  have placed : Tiles (data + protocol.startupBytes totalLeds)
      (next.ranges protocol (s.ctrls ref).chain)
      (data + protocol.startupBytes totalLeds + totalLeds * protocol.bpl) := by
    simp only [LedChains.ranges, nextLeds]
    rw [nextFixtures, show totalLeds * protocol.bpl =
      (((s.ctrls ref).chain.map fun ref => (s.fixtures ref).leds).sum) * protocol.bpl by
        rw [total]; rfl]
    exact tiles
  constructor <;> rw [nextChain]
  · rw [nextTotal, nextData]
    exact placed
  · exact placed.disjoint
  · rw [nextTotal, nextData, nextLen, length]
    omega

/-- The chains as the recomputation of an event finds them. -/
def LedChains.unlinked (s : LedChains γ φ) : ChainEvent γ φ → LedChains γ φ
  | .remove fixture ref _ => s.withChain ref ((s.ctrls ref).chain.erase fixture)
  | _ => s

theorem perform_laidOut {event : ChainEvent γ φ}
    (comes : s.perform event = some (next, some (ref, .completed)))
    (isProtocol : modaddProtocols[((s.unlinked event).ctrls ref).protocol]? = some protocol)
    (fits : (s.unlinked event).Fits ref protocol) : next.LaidOut ref protocol := by
  cases event with
  | append => cases comes
  | recompute =>
    obtain ⟨⟨after, status⟩, recomputed, same⟩ := map_eq_some_iff.mp comes
    cases same
    exact recomputeFixtures_laidOut recomputed isProtocol fits
  | remove fixture other allocator =>
    simp only [LedChains.perform, LedChains.modaddFixtureRemove] at comes
    split at comes
    · cases comes
    rename_i base rest isChain
    split_ifs at comes with first absent
    · cases comes
    split at comes
    · cases comes
    rename_i known isKnown
    obtain ⟨⟨after, status⟩, recomputed, same⟩ := map_eq_some_iff.mp comes
    cases same
    have erased : (s.ctrls other).chain.erase fixture = base :: rest.erase fixture := by
      rw [isChain, erase_cons_tail (by simpa using first)]
    simp only [LedChains.unlinked, erased] at isProtocol fits
    exact recomputeFixtures_laidOut recomputed isProtocol fits

end Layout

/-! ## Runs -/

omit [DecidableEq γ] [DecidableEq φ] in
theorem LedChains.Fresh.sound {s : LedChains γ φ} (fresh : s.Fresh) : s.Sound where
  data ref := .inl (fresh.data ref)
  notLeaked block isAllocated := absurd (fresh.heap block) isAllocated
  notShared ref _ _ notNull := absurd (fresh.data ref) notNull
  notReleasedTwice := fresh.releasedTwice

/-- Along a run the memory is sound exactly as long as each recomputation replaces a block that is
too small and no other, and a recomputation that completes lays the fixtures out in the block. -/
theorem ledChains_sound_iff {start : LedChains γ φ} (fresh : start.Fresh)
    {run : List (ChainEvent γ φ × LedChains γ φ)} (runs : Run ChainStep start run) :
    ((∀ state ∈ visited start run, state.Sound) ↔
      ∀ taken ∈ fired start run, taken.1.KeepsMemory taken.2) ∧
    ∀ taken ∈ fired start run, ∀ next ref protocol,
      taken.1.perform taken.2 = some (next, some (ref, .completed)) →
      modaddProtocols[((taken.1.unlinked taken.2).ctrls ref).protocol]? = some protocol →
      (taken.1.unlinked taken.2).Fits ref protocol → next.LaidOut ref protocol := by
  refine ⟨?_, fun taken _ next ref protocol => perform_laidOut⟩
  refine runs.forall_iff (fun _ => True) (fun state event => state.KeepsMemory event) trivial
    fresh.sound (fun _ _ => trivial) fun _ sound step => ?_
  obtain ⟨⟨after, done⟩, performed, same⟩ := map_eq_some_iff.mp step
  cases same
  exact perform_sound_iff sound performed

/-! ## A controller with two fixtures -/

/-- One controller for the APA102 protocol, without fixtures yet. -/
def oneController : LedChains Unit Bool where
  ctrls _ := { protocol := 0, chain := [], data := 0, dataLen := 0 }
  fixtures _ := { protocol := 0, leds := 1, ctrl := none, outData := 0 }
  heap _ := none
  memory _ := 0
  releasedTwice := false

theorem oneController_fresh : oneController.Fresh where
  chain _ := rfl
  data _ := rfl
  heap _ := rfl
  releasedTwice := rfl

/-- An allocator that gives one block. -/
def givesBlock : DmaAllocator where
  malloc heap size := if heap 4096 = none ∧ size < 4096 then some 4096 else none
  fresh := by
    intro heap size block gives
    split_ifs at gives with free
    cases gives
    exact ⟨by omega, free.1, by omega⟩

/-- An allocator that has nothing. -/
def givesNothing : DmaAllocator where
  malloc _ _ := none
  fresh gives := by cases gives

/-- The state after an event, if it has a result. -/
def LedChains.after (s : LedChains γ φ) (event : ChainEvent γ φ) : LedChains γ φ :=
  ((s.perform event).map Prod.fst).getD s

theorem chainStep_after {s : LedChains γ φ} {event : ChainEvent γ φ}
    (returns : (s.perform event).isSome) : ChainStep s event (s.after event) := by
  obtain ⟨⟨next, done⟩, comes⟩ := isSome_iff_exists.mp returns
  rw [ChainStep, LedChains.after, comes]
  rfl

/-- The run that events make. -/
def LedChains.runOf (s : LedChains γ φ) : List (ChainEvent γ φ) → List (ChainEvent γ φ × LedChains γ φ)
  | [] => []
  | event :: events => (event, s.after event) :: (s.after event).runOf events

/-- Add a fixture and compute the chain. -/
def oneFixture : List (ChainEvent Unit Bool) := [.append false () true, .recompute () givesBlock]

/-- In this run a block is allocated once. -/
theorem ledChains_sound_oneFixture :
    ((∀ state ∈ visited oneController (oneController.runOf oneFixture), state.Sound) ↔
      ∀ taken ∈ fired oneController (oneController.runOf oneFixture),
        taken.1.KeepsMemory taken.2) ∧
    ∀ taken ∈ fired oneController (oneController.runOf oneFixture), ∀ next ref protocol,
      taken.1.perform taken.2 = some (next, some (ref, .completed)) →
      modaddProtocols[((taken.1.unlinked taken.2).ctrls ref).protocol]? = some protocol →
      (taken.1.unlinked taken.2).Fits ref protocol → next.LaidOut ref protocol :=
  ledChains_sound_iff oneController_fresh
    (.cons (chainStep_after rfl) (.cons (chainStep_after rfl) .nil))

/-- Add a second fixture when there is no memory for both. -/
def noRoom : List (ChainEvent Unit Bool) :=
  oneFixture ++ [.append true () true, .recompute () givesNothing]

/-- The block of the first fixture is released, and the controller still points to it. -/
theorem ledChains_dangling :
    Run ChainStep oneController (oneController.runOf noRoom) ∧
      ¬∀ state ∈ visited oneController (oneController.runOf noRoom), state.Sound := by
  refine ⟨.cons (chainStep_after rfl) (.cons (chainStep_after rfl)
    (.cons (chainStep_after rfl) (.cons (chainStep_after rfl) .nil))), fun all => ?_⟩
  have last : noRoom.foldl LedChains.after oneController ∈
      visited oneController (oneController.runOf noRoom) := by
    simp [noRoom, oneFixture, visited, LedChains.runOf]
  rcases (all _ last).data () with null | allocated
  · exact absurd null (by decide)
  · exact absurd allocated (by decide)

end MultiPython.Esp32
