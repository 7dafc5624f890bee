import MultiPython.Heap.Init

/-!
# The collector

`gc_mark_subtree`, `gc_deal_with_stack_overflow`, `gc_sweep` and the functions a
port's `gc_collect` is made of, as `py/gc.c` has them. The two loops without a
bound of their own take fuel and return `none` when it runs out, so that "the
loop ends" is a statement about the result; the fuel they are given is the
number of blocks and a little more.

`tailWalk` is the `do … while (ATB_GET_KIND(…) == AT_TAIL)` walk. It returns the
entries it reads, of which there is one for each block it counts. The walk has
no upper bound in the source; here it stops at the latest after as many entries
as `size_t` can number.
-/

namespace MultiPython.Heap

variable (config : Config)

namespace MpStateMem

/-- The entries the tail walk reads from `entry` on, the last of them not a tail. -/
def tailWalk (state : MpStateMem) : Nat → Nat → List Nat
  | 0, _ => []
  | fuel + 1, entry =>
    if state.atbGetKind entry = .tail then
      entry :: state.tailWalk fuel (entry + 1)
    else
      [entry]

/-- The entries read to find the end of the chain that starts at `block`. -/
def chainReads (state : MpStateMem) (block : Nat) : List Nat :=
  state.tailWalk config.wordSpace (block + 1)

/-- `n_blocks`: the number of consecutive blocks in the chain, as the walk counts them. -/
def chainLength (state : MpStateMem) (block : Nat) : Nat := (state.chainReads config block).length

/-- The addresses of the words `gc_mark_subtree` checks for children. -/
def chainWordAddresses (state : MpStateMem) (block : Nat) : List Nat :=
  (List.range (state.chainLength config block * config.bytesPerBlock / config.bytesPerWord)).map
    fun index => state.ptrFromBlock config block + index * config.bytesPerWord

end MpStateMem

/-- Mark and push the block one word points at, if it is an unmarked head. The
pair holds `gc_stack`, topmost entry first. -/
def gcMarkWord (progress : MpStateMem × List Nat) (address : Nat) : MpStateMem × List Nat :=
  let (state, stack) := progress
  let ptr := state.loadWord config address
  if state.verifyPtr config ptr then
    let childblock := state.blockFromPtr config ptr
    if state.atbGetKind childblock = .head then
      let marked := state.atbHeadToMark childblock
      if stack.length < config.allocGcStackSize then
        (marked, childblock :: stack)
      else
        ({ marked with gcStackOverflow := true }, stack)
    else
      (state, stack)
  else
    (state, stack)

/-- The `for (;;)` loop of `gc_mark_subtree` with `block` the topmost block. -/
def gcMarkSubtreeLoop : Nat → MpStateMem → List Nat → Nat → Option MpStateMem
  | 0, _, _, _ => none
  | fuel + 1, state, stack, block =>
    let (state, stack) :=
      (state.chainWordAddresses config block).foldl (gcMarkWord config) (state, stack)
    match stack with
    | [] => some state
    | next :: rest => gcMarkSubtreeLoop fuel state rest next

def gcMarkSubtree (state : MpStateMem) (block : Nat) : Option MpStateMem :=
  gcMarkSubtreeLoop config (state.blocks + 1) state [] block

/-- Trace a block again if its mark is set. -/
def gcRetrace (state : MpStateMem) (block : Nat) : Option MpStateMem :=
  if state.atbGetKind block = .mark then gcMarkSubtree config state block else some state

/-- The `while` loop of `gc_deal_with_stack_overflow`. -/
def gcDealWithStackOverflowLoop : Nat → MpStateMem → Option MpStateMem
  | 0, _ => none
  | passes + 1, state =>
    if state.gcStackOverflow then
      ((List.range state.blocks).foldlM (gcRetrace config)
        { state with gcStackOverflow := false }).bind (gcDealWithStackOverflowLoop passes)
    else
      some state

def gcDealWithStackOverflow (state : MpStateMem) : Option MpStateMem :=
  gcDealWithStackOverflowLoop config (state.blocks + 2) state

/-- The finaliser protocol `gc_sweep` runs on an unmarked head: look `__del__` up
if the object has a type, and clear the flag. What `__del__` does is not part of
the collector; the heap is locked while it runs, so it cannot allocate or free. -/
def gcFinalise (state : MpStateMem) (block : Nat) : MpStateMem :=
  if config.enableFinaliser && state.ftbGet block then
    let called :=
      if state.loadWord config (state.ptrFromBlock config block) ≠ 0 then
        { state with finalised := block :: state.finalised }
      else
        state
    called.ftbClear block
  else
    state

/-- One iteration of `gc_sweep`; the pair holds `free_tail`. -/
def gcSweepBlock (progress : MpStateMem × Bool) (block : Nat) : MpStateMem × Bool :=
  let (state, freeTail) := progress
  match state.atbGetKind block with
  | .head => ((gcFinalise config state block).atbAnyToFree block, true)
  | .tail => (if freeTail then state.atbAnyToFree block else state, freeTail)
  | .mark => (state.atbMarkToHead block, false)
  | .free => (state, freeTail)

def gcSweep (state : MpStateMem) : MpStateMem :=
  ((List.range state.blocks).foldl (gcSweepBlock config) (state, false)).1

/-- Mark what one root pointer points at, and all its children. -/
def gcCollectRootPtr (state : MpStateMem) (ptr : Nat) : Option MpStateMem :=
  if state.verifyPtr config ptr then
    let block := state.blockFromPtr config ptr
    if state.atbGetKind block = .head then
      gcMarkSubtree config (state.atbHeadToMark block) block
    else
      some state
  else
    some state

def gcCollectRoot (ptrs : List Nat) (state : MpStateMem) : Option MpStateMem :=
  ptrs.foldlM (gcCollectRootPtr config) state

/-- `gc_collect_start`; `stateRoots` is the root pointer section of the active
context's state. -/
def gcCollectStart (stateRoots : List Nat) (state : MpStateMem) : Option MpStateMem :=
  gcCollectRoot config stateRoots
    { state with
      gcLockDepth := state.gcLockDepth + 1
      gcAllocAmount := 0
      gcStackOverflow := false }

def gcCollectEnd (state : MpStateMem) : Option MpStateMem :=
  (gcDealWithStackOverflow config state).map fun settled =>
    let swept := gcSweep config settled
    { swept with gcLastFreeAtbIndex := 0, gcLockDepth := swept.gcLockDepth - 1 }

/-- A port's `gc_collect`: start, then one `gc_collect_root` for each further root
area (the machine stack, the other threads), then end. -/
def gcCollect (stateRoots : List Nat) (areas : List (List Nat)) (state : MpStateMem) :
    Option MpStateMem := do
  let started ← gcCollectStart config stateRoots state
  let traced ← areas.foldlM (fun state ptrs => gcCollectRoot config ptrs state) started
  gcCollectEnd config traced

/-- `gc_sweep_all`: a collection without roots. -/
def gcSweepAll (state : MpStateMem) : Option MpStateMem :=
  gcCollectEnd config
    { state with gcLockDepth := state.gcLockDepth + 1, gcStackOverflow := false }

end MultiPython.Heap
