import MultiPython.Heap.Chunk
import MultiPython.Logic.FirstFit

/-!
# The allocator

`gc_alloc`, `gc_free`, `gc_nbytes` and `gc_realloc` as `py/gc.c` has them. A
pointer is its address, with 0 for `NULL`. An allocation may collect, so the
functions that allocate take the root pointers of that moment, and return `none`
only if a loop of the collector ran out of fuel.
-/

namespace MultiPython.Heap

variable (config : Config)

/-- The root pointers a collection finds: the root section of the active state, and
one list for each further area that the port scans. -/
structure Roots where
  state : List Nat
  areas : List (List Nat)

/-- All root pointers. -/
def Roots.all (roots : Roots) : List Nat := roots.state ++ roots.areas.flatten

/-- `ATB_MASK_0` to `ATB_MASK_3`. -/
def atbMask : Nat → Byte
  | 0 => 0x03#8
  | 1 => 0x0c#8
  | 2 => 0x30#8
  | _ => 0xc0#8

/-- `ATB_0_IS_FREE` to `ATB_3_IS_FREE`. -/
def atbIsFree (slot : Nat) (byte : Byte) : Bool := byte &&& atbMask slot == 0#8

/-- One of the four tests of a table byte in `gc_alloc`; an error is the `goto found`,
with the last block and `n_free`. -/
def gcSearchSlot (state : MpStateMem) (nBlocks index nFree slot : Nat) : Except (Nat × Nat) Nat :=
  if atbIsFree slot (state.memory (state.layout.allocTableStart + index)) then
    if nFree + 1 ≥ nBlocks then
      .error (index * blocksPerAtb + slot, nFree + 1)
    else
      .ok (nFree + 1)
  else
    .ok 0

/-- The body of the search loop. -/
def gcSearchByte (state : MpStateMem) (nBlocks nFree index : Nat) : Except (Nat × Nat) Nat :=
  [0, 1, 2, 3].foldlM (gcSearchSlot state nBlocks index) nFree

/-- Look for a run of `nBlocks` available blocks, from `gc_last_free_atb_index` on. -/
def gcSearch (state : MpStateMem) (nBlocks : Nat) : Except (Nat × Nat) Nat :=
  (List.range' state.gcLastFreeAtbIndex
    (state.layout.allocTableByteLen - state.gcLastFreeAtbIndex)).foldlM
      (gcSearchByte state nBlocks) 0

/-- The collection that `gc_alloc` runs first when the threshold is reached, with the
value of `collected` after it. -/
def gcAllocThresholdCollect (roots : Roots) (state : MpStateMem) : Option (MpStateMem × Bool) :=
  let collected := !state.gcAutoCollectEnabled
  if !collected && decide (state.gcAllocAmount ≥ state.gcAllocThreshold) then
    (gcCollect config roots.state roots.areas state).map (·, true)
  else
    some (state, collected)

/-- The `for (;;)` of `gc_alloc`, which goes round a second time only after a
collection: the heap that the last search looked at, and what it found. -/
def gcAllocSearch (roots : Roots) (nBlocks : Nat) (state : MpStateMem) :
    Option (MpStateMem × Except (Nat × Nat) Nat) := do
  let (state, collected) ← gcAllocThresholdCollect config roots state
  match gcSearch state nBlocks with
  | .error found => some (state, .error found)
  | .ok nFree =>
    if collected then
      some (state, .ok nFree)
    else
      let state ← gcCollect config roots.state roots.areas state
      some (state, gcSearch state nBlocks)

/-- Take the blocks that end at `endBlock`: set the hint, one head and the tails. -/
def gcAllocMark (state : MpStateMem) (endBlock nFree : Nat) : MpStateMem :=
  let startBlock := endBlock + 1 - nFree
  let hinted :=
    if nFree = 1 then
      { state with gcLastFreeAtbIndex := (endBlock + 1) / blocksPerAtb }
    else
      state
  (List.range' (startBlock + 1) (endBlock - startBlock)).foldl MpStateMem.atbFreeToTail
    (hinted.atbFreeToHead startBlock)

/-- Clear the blocks just taken as the configuration asks, and set the finaliser flag. -/
def gcAllocClear (nBytes : Nat) (hasFinaliser : Bool) (state : MpStateMem)
    (startBlock endBlock : Nat) : MpStateMem :=
  let retPtr := state.layout.poolStart + startBlock * config.bytesPerBlock
  let byteLen := (endBlock - startBlock + 1) * config.bytesPerBlock
  let cleared :=
    { state with
      memory :=
        if config.conservativeClear then
          memset state.memory retPtr 0 byteLen
        else
          memset state.memory (retPtr + nBytes) 0 (byteLen - nBytes) }
  if config.enableFinaliser && hasFinaliser then
    -- The type pointer is the first word of the object.
    let untyped := { cleared with memory := memset cleared.memory retPtr 0 config.bytesPerWord }
    untyped.ftbSet startBlock
  else
    cleared

/-- `gc_alloc` from the label `found` on. -/
def gcAllocTake (nBytes nBlocks : Nat) (hasFinaliser : Bool) (state : MpStateMem)
    (endBlock nFree : Nat) : MpStateMem × Nat :=
  let startBlock := endBlock + 1 - nFree
  let marked := gcAllocMark state endBlock nFree
  let counted :=
    { marked with gcAllocAmount := (marked.gcAllocAmount + nBlocks) % config.wordSpace }
  (gcAllocClear config nBytes hasFinaliser counted startBlock endBlock,
    marked.layout.poolStart + startBlock * config.bytesPerBlock)

/-- `n_blocks` of `gc_alloc`, in `size_t` arithmetic. -/
def gcAllocBlocks (nBytes : Nat) : Nat :=
  alignDown config ((nBytes + config.bytesPerBlock - 1) % config.wordSpace) / config.bytesPerBlock

def gcAlloc (roots : Roots) (nBytes : Nat) (hasFinaliser : Bool) (state : MpStateMem) :
    Option (MpStateMem × Nat) :=
  let nBlocks := gcAllocBlocks config nBytes
  if nBlocks = 0 then
    some (state, 0)
  else if state.gcLockDepth > 0 then
    some (state, 0)
  else do
    let (searched, result) ← gcAllocSearch config roots nBlocks state
    match result with
    | .ok _ => some (searched, 0)
    | .error (endBlock, nFree) =>
      some (gcAllocTake config nBytes nBlocks hasFinaliser searched endBlock nFree)

/-- The `do … while` of `gc_free`. -/
def gcFreeLoop : Nat → MpStateMem → Nat → MpStateMem
  | 0, state, _ => state
  | fuel + 1, state, block =>
    let freed := state.atbAnyToFree block
    if freed.atbGetKind (block + 1) = .tail then gcFreeLoop fuel freed (block + 1) else freed

def gcFree (ptr : Nat) (state : MpStateMem) : MpStateMem :=
  if state.gcLockDepth > 0 then
    state
  else if ptr = 0 then
    state
  else
    let block := state.blockFromPtr config ptr
    let unflagged := if config.enableFinaliser then state.ftbClear block else state
    let hinted :=
      if block / blocksPerAtb < unflagged.gcLastFreeAtbIndex then
        { unflagged with gcLastFreeAtbIndex := block / blocksPerAtb }
      else
        unflagged
    gcFreeLoop config.wordSpace hinted block

def gcNbytes (ptr : Nat) (state : MpStateMem) : Nat :=
  if state.verifyPtr config ptr then
    let block := state.blockFromPtr config ptr
    if state.atbGetKind block = .head then
      state.chainLength config block * config.bytesPerBlock
    else
      0
  else
    0

/-- The loop of `gc_realloc` that counts the blocks of the chunk and the free blocks
behind it, over `fuel` entries from `bl` on. -/
def gcReallocScan (state : MpStateMem) (newBlocks : Nat) : Nat → Nat → Nat × Nat → Nat × Nat
  | 0, _, counts => counts
  | fuel + 1, bl, (nBlocks, nFree) =>
    match state.atbGetKind bl with
    | .tail => gcReallocScan state newBlocks fuel (bl + 1) (nBlocks + 1, nFree)
    | .free =>
      if nBlocks + (nFree + 1) ≥ newBlocks then
        (nBlocks, nFree + 1)
      else
        gcReallocScan state newBlocks fuel (bl + 1) (nBlocks, nFree + 1)
    | _ => (nBlocks, nFree)

/-- `n_blocks` and `n_free` of `gc_realloc` for the chunk at `block`. -/
def gcReallocCounts (state : MpStateMem) (block newBlocks : Nat) : Nat × Nat :=
  gcReallocScan state newBlocks (state.blocks - (block + 1)) (block + 1) (1, 0)

/-- `new_blocks` of `gc_realloc`, in `size_t` arithmetic. -/
def gcReallocBlocks (nBytes : Nat) : Nat :=
  (nBytes + config.bytesPerBlock - 1) % config.wordSpace / config.bytesPerBlock

/-- Free the tail blocks that a smaller chunk does not need. -/
def gcReallocShrink (state : MpStateMem) (block nBlocks newBlocks : Nat) : MpStateMem :=
  let freed := (List.range' (block + newBlocks) (nBlocks - newBlocks)).foldl
    MpStateMem.atbAnyToFree state
  if (block + newBlocks) / blocksPerAtb < freed.gcLastFreeAtbIndex then
    { freed with gcLastFreeAtbIndex := (block + newBlocks) / blocksPerAtb }
  else
    freed

/-- Add the free blocks behind a chunk to it, and clear them. -/
def gcReallocExpand (ptr nBytes : Nat) (state : MpStateMem) (block nBlocks newBlocks : Nat) :
    MpStateMem :=
  let taken := (List.range' (block + nBlocks) (newBlocks - nBlocks)).foldl
    MpStateMem.atbFreeToTail state
  { taken with
    memory :=
      if config.conservativeClear then
        memset taken.memory (ptr + nBlocks * config.bytesPerBlock) 0
          ((newBlocks - nBlocks) * config.bytesPerBlock)
      else
        memset taken.memory (ptr + nBytes) 0 (newBlocks * config.bytesPerBlock - nBytes) }

/-- `memcpy` between ranges that do not overlap. -/
def memcpy (memory : Memory) (target source count : Nat) : Memory := fun address =>
  if target ≤ address ∧ address < target + count then
    memory (source + (address - target))
  else
    memory address

/-- Move a chunk to a new place. The old pointer is in use until the end, so a
collection in the allocation finds it on the machine stack. -/
def gcReallocMove (roots : Roots) (ptr nBytes : Nat) (state : MpStateMem) (block nBlocks : Nat) :
    Option (MpStateMem × Nat) := do
  let ftbState := config.enableFinaliser && state.ftbGet block
  let (moved, ptrOut) ←
    gcAlloc config { roots with areas := [ptr] :: roots.areas } nBytes ftbState state
  if ptrOut = 0 then
    some (moved, 0)
  else
    let copied :=
      { moved with memory := memcpy moved.memory ptrOut ptr (nBlocks * config.bytesPerBlock) }
    some (gcFree config ptr copied, ptrOut)

def gcRealloc (roots : Roots) (ptr nBytes : Nat) (allowMove : Bool) (state : MpStateMem) :
    Option (MpStateMem × Nat) :=
  if ptr = 0 then
    gcAlloc config roots nBytes false state
  else if nBytes = 0 then
    some (gcFree config ptr state, 0)
  else if state.gcLockDepth > 0 then
    some (state, 0)
  else
    let block := state.blockFromPtr config ptr
    let newBlocks := gcReallocBlocks config nBytes
    let (nBlocks, nFree) := gcReallocCounts state block newBlocks
    if newBlocks = nBlocks then
      some (state, ptr)
    else if newBlocks < nBlocks then
      some (gcReallocShrink state block nBlocks newBlocks, ptr)
    else if newBlocks ≤ nBlocks + nFree then
      some (gcReallocExpand config ptr nBytes state block nBlocks newBlocks, ptr)
    else if !allowMove then
      some (state, 0)
    else
      gcReallocMove config roots ptr nBytes state block nBlocks

end MultiPython.Heap
