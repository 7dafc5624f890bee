import MultiPython.Logic.Chain
import MultiPython.Logic.Run

/-!
# Contexts in memory

The data of `py/mpstate.c`: the linked list of contexts, the ledger of dynamic
memory of each of them, and the active context of each core. Memory is one map
for each type of object, from addresses to the objects allocated there; a
function returns `none` if it reads through a pointer to nothing, or follows
links without end. `malloc` is not part of the model: a function that allocates is
told what `malloc` returns, 0 being `NULL`.
-/

namespace MultiPython.Context

open Logic

/-- An address; 0 is `NULL`. -/
abbrev Ref := Nat

/-- The number of addresses. -/
def addressSpace : Nat := 2 ^ 32

/-- `mp_task_args_t`. -/
structure MpTaskArgs where
  inputKind : Nat
  source : Ref
  suspend : Nat
  addtl : Ref
deriving DecidableEq, Repr

/-- `mp_context_node_t`, apart from its response queue. -/
structure MpContextNode where
  id : Nat
  status : Int
  state : Ref
  args : MpTaskArgs
  threadctrl : Ref
  memhead : Ref
  next : Ref
deriving DecidableEq, Repr

/-- A node as `memset` to zero leaves it. -/
def MpContextNode.zeroed : MpContextNode := ⟨0, 0, 0, ⟨0, 0, 0, 0⟩, 0, 0, 0⟩

/-- `mp_context_dynmem_node_t`. -/
structure MpContextDynmemNode where
  context : Ref
  mem : Ref
  size : Nat
  next : Ref
deriving DecidableEq, Repr

/-- The memory that contexts live in and the global variables of `py/mpstate.c`, for
interpreter states of type `σ` and cores of type `κ`. -/
structure MpContexts (σ κ : Type) where
  contexts : Ref → Option MpContextNode
  /-- The `mp_state_ctx_t` objects. -/
  states : Ref → Option σ
  dynmems : Ref → Option MpContextDynmemNode
  /-- The memory that the ledgers account for, with its size. -/
  blocks : Ref → Option Nat
  /-- `mp_context_head`, which always points at `mp_default_context`. -/
  contextHead : Ref
  /-- `mp_active_contexts`. -/
  activeContexts : κ → Ref
  /-- `mp_active_context_mirrors`. -/
  activeContextMirrors : κ → MpContextNode
  /-- `mp_current_tIDs`. -/
  currentTIDs : κ → Nat

namespace MpContexts

variable {σ κ : Type} (s : MpContexts σ κ)

/-- Write a context node. -/
def setContext (ref : Ref) (node : MpContextNode) : MpContexts σ κ :=
  { s with contexts := Function.update s.contexts ref (some node) }

/-- `free` of a context node. -/
def freeContext (ref : Ref) : MpContexts σ κ :=
  { s with contexts := Function.update s.contexts ref none }

/-- Write a ledger entry. -/
def setDynmem (ref : Ref) (node : MpContextDynmemNode) : MpContexts σ κ :=
  { s with dynmems := Function.update s.dynmems ref (some node) }

/-! ## The context list -/

def mpNewContextNode (malloced : Ref) : MpContexts σ κ × Ref :=
  if malloced = 0 then (s, 0) else (s.setContext malloced .zeroed, malloced)

def mpNewState [Zero σ] (malloced : Ref) : MpContexts σ κ × Ref :=
  if malloced = 0 then
    (s, 0)
  else
    ({ s with states := Function.update s.states malloced (some 0) }, malloced)

def mpContextByTid (tID : Nat) : Option Ref :=
  walk MpContextNode.next s.contexts (fun node => node.id == tID) addressSpace s.contextHead

def mpContextPredecessor (successor : Ref) : Option Ref :=
  walk MpContextNode.next s.contexts (fun node => node.next == successor) addressSpace s.contextHead

def mpContextTail : Option Ref := s.mpContextPredecessor 0

/-- The contexts that a loop over `mp_context_iter_next` visits. -/
def contextList : List Ref := follow MpContextNode.next s.contexts addressSpace s.contextHead

def mpContextAppend (node : Ref) : Option (MpContexts σ κ) :=
  if node = 0 then
    some s
  else do
    let tail ← s.mpContextTail
    if tail = 0 then
      some s
    else
      let last ← s.contexts tail
      let linked := s.setContext tail { last with next := node }
      let added ← linked.contexts node
      some (linked.setContext node { added with next := 0 })

/-- `mp_context_append_new`, with the results of its two calls of `malloc`. -/
def mpContextAppendNew [Zero σ] (mallocNode mallocState : Ref) : Option (MpContexts σ κ × Ref) :=
  let (s, node) := s.mpNewContextNode mallocNode
  if node = 0 then
    some (s, 0)
  else
    let (s, state) := s.mpNewState mallocState
    if state = 0 then
      some (s.freeContext node, 0)
    else do
      let added ← s.contexts node
      let s ← (s.setContext node { added with state := state }).mpContextAppend node
      some (s, node)

/-! ## The ledger of dynamic memory -/

def mpDynmemPredecessor (successor context : Ref) : Option Ref :=
  if context = 0 then
    some 0
  else do
    let node ← s.contexts context
    walk MpContextDynmemNode.next s.dynmems (fun node => node.next == successor) addressSpace
      node.memhead

def mpDynmemTail (context : Ref) : Option Ref := s.mpDynmemPredecessor 0 context

def mpDynmemAppend (node context : Ref) : Option (MpContexts σ κ) :=
  if node = 0 then
    some s
  else if context = 0 then
    some s
  else do
    let entry ← s.dynmems node
    if entry.context ≠ 0 then
      some s
    else
      let s := s.setDynmem node { entry with next := 0 }
      let owner ← s.contexts context
      if owner.memhead = 0 then
        some ((s.setContext context { owner with memhead := node }).setDynmem node
          { entry with next := 0, context := context })
      else
        let tail ← s.mpDynmemTail context
        if tail = 0 then
          some s
        else
          let last ← s.dynmems tail
          some ((s.setDynmem tail { last with next := node }).setDynmem node
            { entry with next := 0, context := context })

def mpDynmemRemove (node context : Ref) : Option (MpContexts σ κ) :=
  if node = 0 then
    some s
  else if context = 0 then
    some s
  else do
    let owner ← s.contexts context
    let entry ← s.dynmems node
    let unlinked ←
      if owner.memhead = node then
        some (some (s.setContext context { owner with memhead := entry.next }))
      else do
        let predecessor ← s.mpDynmemPredecessor node context
        if predecessor = 0 then
          some none
        else
          let before ← s.dynmems predecessor
          some (some (s.setDynmem predecessor { before with next := entry.next }))
    match unlinked with
    | none => some s
    | some s =>
      some
        { s with
          blocks := if entry.mem = 0 then s.blocks else Function.update s.blocks entry.mem none
          dynmems := Function.update s.dynmems node none }

/-- `mp_context_dynmem_alloc`: the ledger entry's `malloc`, then the memory's. -/
def mpContextDynmemAlloc (size : Nat) (context mallocNode mallocMem : Ref) :
    Option (MpContexts σ κ × Ref) :=
  if context = 0 then
    some (s, 0)
  else if mallocNode = 0 then
    some (s, 0)
  else if mallocMem = 0 then
    some ({ s with dynmems := Function.update s.dynmems mallocNode none }, 0)
  else do
    let s :=
      { s with
        dynmems := Function.update s.dynmems mallocNode (some ⟨0, mallocMem, size, 0⟩)
        blocks := Function.update s.blocks mallocMem (some size) }
    let s ← s.mpDynmemAppend mallocNode context
    some (s, mallocMem)

/-- The `while` loop of `mp_context_dynmem_free_all`. -/
def mpDynmemFreeLoop : Nat → MpContexts σ κ → Ref → Option (MpContexts σ κ)
  | 0, _, _ => none
  | fuel + 1, s, context => do
      let owner ← s.contexts context
      if owner.memhead = 0 then
        some s
      else
        let s ← s.mpDynmemRemove owner.memhead context
        mpDynmemFreeLoop fuel s context

/-- `mp_context_dynmem_free_all`; the result is the memory and the return value. -/
def mpContextDynmemFreeAll (context : Ref) : Option (MpContexts σ κ × Int) :=
  if context = 0 then
    some (s, -1)
  else do
    let owner ← s.contexts context
    if owner.memhead = 0 then
      some (s, -1)
    else
      let s ← mpDynmemFreeLoop addressSpace s context
      some (s, 0)

/-! ## Tasks -/

def mpContextRemove (node : Ref) : Option (MpContexts σ κ) := do
  let predecessor ← s.mpContextPredecessor node
  if predecessor = 0 then
    some s
  else
    let removed ← s.contexts node
    let before ← s.contexts predecessor
    let unlinked := s.setContext predecessor { before with next := removed.next }
    let (freed, _) ← unlinked.mpContextDynmemFreeAll node
    let last ← freed.contexts node
    some ({ freed with states := Function.update freed.states last.state none }.freeContext node)

def mpTaskRegister [Zero σ] (tID : Nat) (addtlargs mallocNode mallocState : Ref) :
    Option (MpContexts σ κ × Ref) := do
  let existing ← s.mpContextByTid tID
  if existing ≠ 0 then
    some (s, 0)
  else
    let (s, node) ← s.mpContextAppendNew mallocNode mallocState
    if node = 0 then
      some (s, 0)
    else
      let added ← s.contexts node
      some (s.setContext node
        { added with
          id := tID
          args := { added.args with inputKind := 0, source := 0, addtl := addtlargs }
          status := 0 }, node)

def mpTaskRemove (tID : Nat) : Option (MpContexts σ κ) := do
  let node ← s.mpContextByTid tID
  if node = s.contextHead then
    some s
  else if node = 0 then
    some s
  else
    s.mpContextRemove node

variable [DecidableEq κ] (core : κ)

/-- `mp_context_switch` on a core. `mp_context_refresh` reads the state of the context,
so it has to be there. -/
def mpContextSwitch (node : Ref) : Option (MpContexts σ κ) :=
  if node = 0 then
    some s
  else do
    let mirror ← s.contexts node
    let _ ← s.states mirror.state
    some
      { s with
        activeContexts := Function.update s.activeContexts core node
        activeContextMirrors := Function.update s.activeContextMirrors core mirror }

/-- `mp_task_switched_in` on a core. -/
def mpTaskSwitchedIn (tID : Nat) : Option (MpContexts σ κ) := do
  let s := { s with currentTIDs := Function.update s.currentTIDs core tID }
  let node ← s.mpContextByTid tID
  if node = 0 then
    some s
  else
    s.mpContextSwitch core node

/-- The first lines of `multipython_task_template` and of `mp_task`: the task that runs
on the core sets the id of its context and switches to it. -/
def multipythonTaskEntry (context : Ref) : Option (MpContexts σ κ) := do
  let node ← s.contexts context
  (s.setContext context { node with id := s.currentTIDs core }).mpContextSwitch core context

/-- The memory before the first call: `mp_default_context` is the only context, and no
core has an active one. -/
def initial (defaultContext defaultState : Ref) (state : σ) : MpContexts σ κ where
  contexts := Function.update (fun _ => none) defaultContext
    (some { MpContextNode.zeroed with state := defaultState })
  states := Function.update (fun _ => none) defaultState (some state)
  dynmems := fun _ => none
  blocks := fun _ => none
  contextHead := defaultContext
  activeContexts := fun _ => 0
  activeContextMirrors := fun _ => .zeroed
  currentTIDs := fun _ => 0

end MpContexts

end MultiPython.Context
