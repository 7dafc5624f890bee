import MultiPython.Context.Tasks
import MultiPython.Esp32.Response
import MultiPython.Logic.Run

/-!
# The runtime on the ESP32

The functions of `modmultipython.c` and `mpthreadport.c` that start and end contexts and
threads, and the system they are steps of: tasks on several cores, in any order,
with the scheduler calling `mp_task_switched_in`. A task that was created for a
context waits until it runs; a thread is created first and put into the list of its
context later, so that it may run in between. `Outcome` says once what each event
does to the list of contexts; the invariants of the runtime are proved from it.
-/

namespace MultiPython.Esp32

open Context Logic

variable {σ κ Obj ε : Type}

/-- The exceptions that the functions raise. -/
inductive Raised where
  | enomem
  | eacces
  | enxio
  | typeError
deriving DecidableEq, Repr

/-! ## Starting and ending a context -/

/-- The arguments of `multipython.start`: the length of the source if it is a string,
and the integers given for `type` and `suspend`. -/
structure StartArgs where
  source : Option Nat
  type : Option Int
  suspend : Option Int
deriving DecidableEq, Repr

def mpParseSingleInput : Nat := 0

def mpParseFileInput : Nat := 1

/-- The results of the four calls of `malloc`: the node, the state, the ledger entry and
the copy of the source. -/
structure StartMallocs where
  node : Ref
  state : Ref
  entry : Ref
  source : Ref
deriving DecidableEq, Repr

/-- `multipython_start` up to the creation of the task. -/
def multipythonStart [Zero σ] (s : MpContexts σ κ) (args : StartArgs) (mallocs : StartMallocs) :
    Option (MpContexts σ κ × Except Raised Ref) := do
  let (s, context) ← s.mpTaskRegister 0 0 mallocs.node mallocs.state
  if context = 0 then
    some (s, .error .enomem)
  else
    match args.source with
    | none => some (s, .error .typeError)
    | some length =>
      let (s, source) ← s.mpContextDynmemAlloc (length + 1) context mallocs.entry mallocs.source
      if source = 0 then
        let s ← s.mpContextRemove context
        some (s, .error .enomem)
      else
        let node ← s.contexts context
        let kind := if args.type = some (mpParseSingleInput : Int) then mpParseSingleInput
          else mpParseFileInput
        let suspend := ((args.suspend.getD 0) % 256).toNat
        some (s.setContext context
          { node with
            args := { node.args with inputKind := kind, source := source, suspend := suspend } },
          .ok context)

/-- `multipython_end_task`, up to `vTaskDelete`. -/
def multipythonEndTask (s : MpContexts σ κ) (taskID : Nat) :
    Option (MpContexts σ κ × Except Raised Unit) := do
  let context ← s.mpContextByTid taskID
  if context = s.contextHead then
    some (s, .error .eacces)
  else if taskID = 0 ∨ context = 0 then
    some (s, .error .enxio)
  else
    let s ← s.mpTaskRemove taskID
    some (s, .ok ())

/-! ## Threads -/

/-- `mp_thread_init` on a core: the memory and, if the thread control could be allocated,
the context that has it now. -/
def mpThreadInit (s : MpContexts σ κ) (core : κ) (size : Nat) (mallocEntry mallocMem : Ref) :
    Option (MpContexts σ κ × Option Ref) :=
  if s.activeContexts core = 0 then
    some (s, none)
  else do
    let owner ← s.mpContextByTid (s.currentTIDs core)
    if owner = 0 then
      some (s, none)
    else
      let (s, threadCtrl) ← s.mpContextDynmemAlloc size owner mallocEntry mallocMem
      if threadCtrl = 0 then
        some (s, none)
      else
        let node ← s.contexts (s.activeContexts core)
        some (s.setContext (s.activeContexts core) { node with threadctrl := threadCtrl },
          some (s.activeContexts core))

/-- The check at the start of `mp_thread_create_ex`: the context of the new thread. -/
def mpThreadContext (s : MpContexts σ κ) (core : κ) : Option (Option Ref) :=
  if s.activeContexts core = 0 then
    some none
  else do
    let node ← s.contexts (s.activeContexts core)
    some (if node.threadctrl = 0 then none else some (s.activeContexts core))

/-- The first context in the list whose threads, as `threads` has them, include a task. -/
def contextOfThread (s : MpContexts σ κ) (threads : Ref → List Nat) (tcb : Nat) : Option Ref :=
  s.contextList.find? fun ref =>
    decide ((s.nodeOf ref).threadctrl ≠ 0) && (threads ref).contains tcb

/-- The list of threads that `vPortCleanUpTCB` leaves: `prev` is never set, so the list starts
behind the thread, wherever it was. -/
def unlinkThread (tcb : Nat) : List Nat → List Nat
  | [] => []
  | id :: rest => if id = tcb then rest else unlinkThread tcb rest

/-! ## The system -/

/-- The memory of the runtime and what the scheduler knows. -/
structure Runtime (σ κ Obj : Type) where
  memory : MpContexts σ κ
  responses : Responses Obj
  /-- The threads in the thread control of a context, by the address of the context. -/
  threads : Ref → List Nat
  /-- Tasks that were created for a context and have not run yet. -/
  waiting : List (Ref × Nat)
  /-- Threads that were created and are not in the list of their context yet. -/
  spawned : List (Ref × Nat)
  /-- The context at an address, told apart from earlier contexts there. -/
  incarnation : Ref → Nat
  /-- The number of contexts so far. -/
  created : Nat
  /-- The contexts that were removed. -/
  retired : List Nat

/-- What can happen next. -/
inductive RuntimeEvent (κ Obj : Type) where
  /-- `multipython.start`, with the handle of the task if there is one. -/
  | multipythonStart (args : StartArgs) (mallocs : StartMallocs) (task : Option Nat)
  | taskEntry (core : κ) (context : Ref)
  | mpTaskSwitchedIn (core : κ) (tID : Nat)
  | multipythonEndTask (taskID : Nat)
  /-- The end of `multipython_task_template`. -/
  | taskFinished (core : κ)
  | mpThreadInit (core : κ) (size : Nat) (mallocEntry mallocMem : Ref)
  /-- `mp_thread_create_ex` up to `xTaskCreate`. -/
  | mpThreadCreate (core : κ) (handle : Nat)
  /-- The rest of `mp_thread_create_ex`. -/
  | mpThreadAdded (context : Ref) (handle : Nat)
  | vPortCleanUpTCB (tcb : Nat)
  | responseMakeNew (args : ResponseArgs Obj) (mallocResponse mallocNode : Bool)
  | notify (condition : Obj)
  | checkResponses (core : κ)

namespace Runtime

/-- The runtime before the main task has run. -/
def initial [Zero Obj] (defaultContext defaultState : Ref) (state : σ) (mainTask : Nat) :
    Runtime σ κ Obj where
  memory := .initial defaultContext defaultState state
  responses := ⟨[], fun _ => .empty fun _ => ⟨0, 0⟩⟩
  threads := fun _ => []
  waiting := [(defaultContext, mainTask)]
  spawned := []
  incarnation := fun _ => 0
  created := 1
  retired := []

variable (s : Runtime σ κ Obj)

/-- A context is new: its queue is empty. -/
def begun [Zero Obj] (memory : MpContexts σ κ) (context : Ref) : Runtime σ κ Obj :=
  { s with
    memory := memory
    responses :=
      { s.responses with
        queues := Function.update s.responses.queues context (.empty fun _ => ⟨0, 0⟩) }
    incarnation := Function.update s.incarnation context s.created
    created := s.created + 1 }

/-- The task of a context was created, if it could be. -/
def assigned (context : Ref) : Option Nat → Runtime σ κ Obj
  | none => s
  | some task => { s with waiting := s.waiting ++ [(context, task)] }

/-- The context with an id is gone. -/
def ended (memory : MpContexts σ κ) (context : Ref) : Runtime σ κ Obj :=
  { s with
    memory := memory
    spawned := s.spawned.filter fun pair => pair.1 ≠ context
    retired := s.incarnation context :: s.retired }

variable [Zero σ] [DecidableEq κ] [Zero Obj] (equal : Obj → Obj → Except ε Bool)
  (mpConstNone : Obj)

/-- One event. -/
def step : RuntimeEvent κ Obj → Option (Runtime σ κ Obj)
  | .multipythonStart args mallocs task => do
      let (memory, result) ← Esp32.multipythonStart s.memory args mallocs
      match result with
      | .ok context => some ((s.begun memory context).assigned context task)
      | .error .typeError => some (s.begun memory mallocs.node)
      | .error _ => some { s with memory := memory }
  | .taskEntry core context => do
      let memory ← s.memory.multipythonTaskEntry core context
      some
        { s with
          memory := memory
          waiting := s.waiting.filter fun pair => pair.1 ≠ context }
  | .mpTaskSwitchedIn core tID => do
      let memory ← s.memory.mpTaskSwitchedIn core tID
      some { s with memory := memory }
  | .multipythonEndTask taskID => do
      let context ← s.memory.mpContextByTid taskID
      let (memory, result) ← Esp32.multipythonEndTask s.memory taskID
      match result with
      | .ok _ => some (s.ended memory context)
      | .error _ => some { s with memory := memory }
  | .taskFinished core => do
      let context ← s.memory.mpContextByTid (s.memory.currentTIDs core)
      let memory ← s.memory.mpTaskRemove (s.memory.currentTIDs core)
      some (if context = s.memory.contextHead ∨ context = 0 then { s with memory := memory }
        else s.ended memory context)
  | .mpThreadInit core size mallocEntry mallocMem => do
      let (memory, controlled) ← Esp32.mpThreadInit s.memory core size mallocEntry mallocMem
      match controlled with
      | none => some { s with memory := memory }
      | some context =>
        some
          { s with
            memory := memory
            threads := Function.update s.threads context [s.memory.currentTIDs core] }
  | .mpThreadCreate core handle => do
      let context ← mpThreadContext s.memory core
      match context with
      | none => some s
      | some context =>
        some { s with spawned := s.spawned ++ [(context, handle)] }
  | .mpThreadAdded context handle =>
    some
      { s with
        threads := Function.update s.threads context (handle :: s.threads context)
        spawned := s.spawned.filter fun pair => pair ≠ (context, handle) }
  | .vPortCleanUpTCB tcb =>
    match contextOfThread s.memory s.threads tcb with
    | none => some s
    | some context =>
      some
        { s with
          threads := Function.update s.threads context (unlinkThread tcb (s.threads context)) }
  | .responseMakeNew args mallocResponse mallocNode =>
    let context := args.context.getD 0
    let registeredFor := if context ∈ s.memory.contextList then some (s.incarnation context)
      else none
    let made := multipythonResponseMakeNew mpConstNone s.responses args mallocResponse mallocNode
      registeredFor
    some { s with responses := made.getD s.responses }
  | .notify condition =>
    some { s with responses := (multipythonNotify equal mpConstNone s.responses condition).responses }
  | .checkResponses core => do
      let _ ← s.memory.contexts (s.memory.activeContexts core)
      let queue := (mpResponseQueueRead (s.responses.queues (s.memory.activeContexts core))).1
      some
        { s with
          responses :=
            { s.responses with
              queues := Function.update s.responses.queues (s.memory.activeContexts core) queue } }

/-- What the system and the callers promise: `malloc` returns unused memory, a task runs on one
core at a time and enters the context it was created for, a context that ends is that of a task, only the main
task of a context calls `mp_thread_init`, no thread is created through a pointer to a
freed context, and `mp_thread_create_ex` goes on with the thread that it created. -/
def Promised : RuntimeEvent κ Obj → Prop
  | .multipythonStart _ mallocs _ =>
    Malloced s.memory mallocs.node ∧
      Malloced (s.memory.mpNewContextNode mallocs.node).1 mallocs.state ∧
      ∀ result ∈ s.memory.mpTaskRegister 0 0 mallocs.node mallocs.state,
        Malloced result.1 mallocs.entry
  | .taskEntry core context => (context, s.memory.currentTIDs core) ∈ s.waiting
  | .mpTaskSwitchedIn core tID => ∀ other, other ≠ core → s.memory.currentTIDs other ≠ tID
  | .taskFinished core => s.memory.currentTIDs core ≠ 0
  | .mpThreadInit core _ mallocEntry _ =>
    Malloced s.memory mallocEntry ∧ s.memory.activeContexts core ∈ s.memory.contextList ∧
      s.memory.currentTIDs core ≠ 0 ∧
      (s.memory.nodeOf (s.memory.activeContexts core)).id = s.memory.currentTIDs core
  | .mpThreadCreate core _ =>
    s.memory.activeContexts core = 0 ∨ s.memory.activeContexts core ∈ s.memory.contextList
  | .mpThreadAdded context handle => (context, handle) ∈ s.spawned
  | _ => True

instance [Fintype κ] (event : RuntimeEvent κ Obj) : Decidable (s.Promised event) :=
  match event with
  | .multipythonStart _ mallocs _ =>
    inferInstanceAs (Decidable (Malloced s.memory mallocs.node ∧
      Malloced (s.memory.mpNewContextNode mallocs.node).1 mallocs.state ∧
      ∀ result ∈ s.memory.mpTaskRegister 0 0 mallocs.node mallocs.state,
        Malloced result.1 mallocs.entry))
  | .taskEntry core context =>
    inferInstanceAs (Decidable ((context, s.memory.currentTIDs core) ∈ s.waiting))
  | .mpTaskSwitchedIn core tID =>
    inferInstanceAs (Decidable (∀ other, other ≠ core → s.memory.currentTIDs other ≠ tID))
  | .taskFinished core => inferInstanceAs (Decidable (s.memory.currentTIDs core ≠ 0))
  | .mpThreadInit core _ mallocEntry _ =>
    inferInstanceAs (Decidable (Malloced s.memory mallocEntry ∧
      s.memory.activeContexts core ∈ s.memory.contextList ∧ s.memory.currentTIDs core ≠ 0 ∧
      (s.memory.nodeOf (s.memory.activeContexts core)).id = s.memory.currentTIDs core))
  | .mpThreadCreate core _ =>
    inferInstanceAs (Decidable (s.memory.activeContexts core = 0 ∨
      s.memory.activeContexts core ∈ s.memory.contextList))
  | .mpThreadAdded context handle => inferInstanceAs (Decidable ((context, handle) ∈ s.spawned))
  | .multipythonEndTask _ | .vPortCleanUpTCB _ | .responseMakeNew _ _ _ | .notify _
  | .checkResponses _ => .isTrue trivial

/-- A promised event. -/
def Step (s : Runtime σ κ Obj) (event : RuntimeEvent κ Obj) (after : Runtime σ κ Obj) : Prop :=
  s.Promised event ∧ s.step equal mpConstNone event = some after

end Runtime

/-! ## What an event does -/

/-- The task whose context an event removes. -/
def Runtime.target (s : Runtime σ κ Obj) : RuntimeEvent κ Obj → Option Nat
  | .multipythonEndTask taskID => some taskID
  | .taskFinished core => some (s.memory.currentTIDs core)
  | _ => none

/-- The context that an event removes: the one that `mp_context_by_tid` finds for the task that
ends, unless it is the default one. -/
def Runtime.removes (s : Runtime σ κ Obj) (event : RuntimeEvent κ Obj) : Option Ref := do
  let tID ← s.target event
  let context ← s.memory.mpContextByTid tID
  if tID = 0 ∨ context = s.memory.contextHead ∨ context = 0 then none else some context

theorem Runtime.removes_iff {s : Runtime σ κ Obj} {event : RuntimeEvent κ Obj} {context : Ref} :
    s.removes event = some context ↔
      ∃ tID, s.target event = some tID ∧ tID ≠ 0 ∧ s.memory.mpContextByTid tID = some context ∧
        context ≠ s.memory.contextHead ∧ context ≠ 0 := by
  simp only [Runtime.removes, Option.bind_eq_bind, Option.bind_eq_some_iff,
    Option.ite_none_left_eq_some, Option.some.injEq, not_or]
  constructor
  · rintro ⟨tID, isTarget, found, isFound, ⟨isTask, notHead, notNull⟩, rfl⟩
    exact ⟨tID, isTarget, isTask, isFound, notHead, notNull⟩
  · rintro ⟨tID, isTarget, isTask, isFound, notHead, notNull⟩
    exact ⟨tID, isTarget, context, isFound, ⟨isTask, notHead, notNull⟩, rfl⟩

theorem Runtime.removes_of_untargeted {s : Runtime σ κ Obj} {event : RuntimeEvent κ Obj}
    (untargeted : s.target event = none) : s.removes event = none := by
  rw [Runtime.removes, untargeted]
  rfl

/-- The event switches a core, or puts a thread into a list. -/
def RuntimeEvent.switches : RuntimeEvent κ Obj → Bool
  | .taskEntry _ _ | .mpTaskSwitchedIn _ _ | .mpThreadAdded _ _ => true
  | _ => false

/-- What an event does to the runtime, whose context list is `refs` before and the last
argument after it. -/
inductive Outcome (s : Runtime σ κ Obj) [DecidableEq κ] [Zero Obj] (refs : List Ref) :
    RuntimeEvent κ Obj → Runtime σ κ Obj → List Ref → Prop where
  | notStarted {args mallocs task memory} (kept : Kept s.memory refs memory) :
      Outcome s refs (.multipythonStart args mallocs task) { s with memory := memory } refs
  | started {args mallocs task memory} (created : Option Nat)
      (appended : Appended s.memory refs mallocs.node 0 memory) :
      Outcome s refs (.multipythonStart args mallocs task)
        ((s.begun memory mallocs.node).assigned mallocs.node created) (refs ++ [mallocs.node])
  | entered {core context} (member : context ∈ refs) :
      Outcome s refs (.taskEntry core context)
        { s with
          memory := (s.memory.identified core context).switched core context
          waiting := s.waiting.filter fun pair => pair.1 ≠ context } refs
  | unclaimed {core tID} (nobody : ∀ ref ∈ refs, (s.memory.nodeOf ref).id ≠ tID) :
      Outcome s refs (.mpTaskSwitchedIn core tID)
        { s with memory := s.memory.running core tID } refs
  | switched {core tID ref} (member : ref ∈ refs) (found : s.memory.mpContextByTid tID = some ref)
      (isId : (s.memory.nodeOf ref).id = tID) :
      Outcome s refs (.mpTaskSwitchedIn core tID)
        { s with memory := (s.memory.running core tID).switched core ref } refs
  | ended {event context memory} (removes : s.removes event = some context)
      (member : context ∈ refs)
      (named : (s.memory.nodeOf context).id ≠ 0)
      (removed : Removed s.memory refs context memory) :
      Outcome s refs event (s.ended memory context) (refs.erase context)
  | notEnded {event} (nothing : s.removes event = none) (plain : event.switches = false) :
      Outcome s refs event s refs
  | noThreads {core size mallocEntry mallocMem memory} (kept : Kept s.memory refs memory) :
      Outcome s refs (.mpThreadInit core size mallocEntry mallocMem) { s with memory := memory } refs
  | threadInit {core size mallocEntry mallocMem memory threadCtrl}
      (member : s.memory.activeContexts core ∈ refs)
      (main : (s.memory.nodeOf (s.memory.activeContexts core)).id = s.memory.currentTIDs core)
      (kept : Kept s.memory refs memory) :
      Outcome s refs (.mpThreadInit core size mallocEntry mallocMem)
        { s with
          memory := memory.setContext (s.memory.activeContexts core)
            { memory.nodeOf (s.memory.activeContexts core) with threadctrl := threadCtrl }
          threads := Function.update s.threads (s.memory.activeContexts core)
            [s.memory.currentTIDs core] } refs
  | threadCreated {core handle} (member : s.memory.activeContexts core ∈ refs) :
      Outcome s refs (.mpThreadCreate core handle)
        { s with spawned := s.spawned ++ [(s.memory.activeContexts core, handle)] } refs
  | threadAdded {context handle} (member : context ∈ refs) :
      Outcome s refs (.mpThreadAdded context handle)
        { s with
          threads := Function.update s.threads context (handle :: s.threads context)
          spawned := s.spawned.filter fun pair => pair ≠ (context, handle) } refs
  | cleanedUp {tcb threads} (fewer : ∀ ref, threads ref ⊆ s.threads ref) :
      Outcome s refs (.vPortCleanUpTCB tcb) { s with threads := threads } refs
  | responded {event responses nodes} (untargeted : s.target event = none)
      (plain : event.switches = false) (head : responses.head = s.responses.head ++ nodes)
      (registered : ∀ node ∈ nodes, node.registeredFor =
        if node.response.context ∈ s.memory.contextList then
          some (s.incarnation node.response.context)
        else none) :
      Outcome s refs event { s with responses := responses } refs

theorem Outcome.answered {s : Runtime σ κ Obj} [DecidableEq κ] [Zero Obj] {refs : List Ref}
    {event : RuntimeEvent κ Obj} {responses : Responses Obj} (untargeted : s.target event = none)
    (plain : event.switches = false) (head : responses.head = s.responses.head) :
    Outcome s refs event { s with responses := responses } refs :=
  .responded untargeted plain (show responses.head = s.responses.head ++ [] by simpa using head)
    (by simp)

/-- The contexts form one list, a task waits for a context that has no id yet, and a thread is
created for a listed context. -/
structure RuntimeLinked (s : Runtime σ κ Obj) (refs : List Ref) : Prop where
  linked : ∃ ledger, WellLinked s.memory refs ledger
  waiting : ∀ pair ∈ s.waiting, pair.1 ∈ refs ∧ (s.memory.nodeOf pair.1).id = 0
  spawned : ∀ pair ∈ s.spawned, pair.1 ∈ refs

section Steps

variable {s after : Runtime σ κ Obj} {refs later : List Ref} {event : RuntimeEvent κ Obj}

theorem RuntimeLinked.kept (holds : RuntimeLinked s refs) {memory : MpContexts σ κ}
    (kept : Kept s.memory refs memory) : RuntimeLinked { s with memory := memory } refs := by
  refine ⟨kept.linked, fun pair waits => ?_, holds.spawned⟩
  obtain ⟨member, unnamed⟩ := holds.waiting pair waits
  exact ⟨member, ((kept.others pair.1 member).id_eq).trans unnamed⟩

variable [DecidableEq κ] [Zero Obj]

/-- The invariant survives whatever an event does. -/
theorem Outcome.linked (holds : RuntimeLinked s refs) (outcome : Outcome s refs event after later) :
    RuntimeLinked after later := by
  obtain ⟨ledger, linked⟩ := holds.linked
  cases outcome with
  | notStarted kept => exact holds.kept kept
  | @started args mallocs task memory created appended =>
    have begun : RuntimeLinked (s.begun memory mallocs.node) (refs ++ [mallocs.node]) := by
      refine ⟨appended.linked, fun pair waits => ?_, fun pair waits => ?_⟩
      · obtain ⟨member, unnamed⟩ := holds.waiting pair waits
        exact ⟨List.mem_append_left _ member,
          ((appended.others pair.1 member).id_eq).trans unnamed⟩
      · exact List.mem_append_left _ (holds.spawned pair waits)
    cases created with
    | none => exact begun
    | some task =>
      refine ⟨begun.linked, fun pair waits => ?_, begun.spawned⟩
      rcases List.mem_append.mp waits with before | new
      · exact begun.waiting pair before
      · rw [List.mem_singleton.mp new]
        exact ⟨by simp, appended.id_eq⟩
  | @entered core context member =>
    refine ⟨⟨ledger, (linked.identified core context).switched core context⟩,
      fun pair waits => ?_, holds.spawned⟩
    obtain ⟨waits, different⟩ := List.mem_filter.mp waits
    obtain ⟨member, unnamed⟩ := holds.waiting pair waits
    have kept : ((s.memory.identified core context).switched core context).nodeOf pair.1 =
        s.memory.nodeOf pair.1 :=
      (s.memory.setContext_nodeOf _ _ _).trans (if_neg (by simpa using different))
    exact ⟨member, (congrArg MpContextNode.id kept).trans unnamed⟩
  | unclaimed => exact ⟨⟨ledger, linked.running _ _⟩, holds.waiting, holds.spawned⟩
  | switched =>
    exact ⟨⟨ledger, (linked.running _ _).switched _ _⟩, holds.waiting, holds.spawned⟩
  | @ended event context memory removes member named removed =>
    refine ⟨removed.linked, fun pair waits => ?_, fun pair waits => ?_⟩
    · obtain ⟨member, unnamed⟩ := holds.waiting pair waits
      have different : pair.1 ≠ context := fun same => named (same ▸ unnamed)
      have stays := (List.mem_erase_of_ne different).mpr member
      exact ⟨stays, ((removed.others pair.1 stays).id_eq).trans unnamed⟩
    · obtain ⟨before, different⟩ := List.mem_filter.mp waits
      exact (List.mem_erase_of_ne (by simpa using different)).mpr (holds.spawned pair before)
  | notEnded => exact holds
  | noThreads kept => exact holds.kept kept
  | @threadInit core size mallocEntry mallocMem memory threadCtrl member main kept =>
    have middle := holds.kept kept
    obtain ⟨middleLedger, middleLinked⟩ := middle.linked
    refine ⟨⟨middleLedger, middleLinked.setContext rfl rfl rfl⟩, fun pair waits => ?_,
      holds.spawned⟩
    obtain ⟨member, unnamed⟩ := middle.waiting pair waits
    refine ⟨member, ?_⟩
    rw [MpContexts.setContext_nodeOf]
    split
    · next same => exact (congrArg MpContextNode.id (congrArg memory.nodeOf same)).symm.trans unnamed
    · exact unnamed
  | @threadCreated core handle member =>
    refine ⟨holds.linked, holds.waiting, fun pair waits => ?_⟩
    rcases List.mem_append.mp waits with before | new
    · exact holds.spawned pair before
    · rw [List.mem_singleton.mp new]
      exact member
  | threadAdded =>
    exact ⟨holds.linked, holds.waiting, fun pair waits =>
      holds.spawned pair (List.mem_of_mem_filter waits)⟩
  | cleanedUp => exact ⟨holds.linked, holds.waiting, holds.spawned⟩
  | responded => exact ⟨holds.linked, holds.waiting, holds.spawned⟩

end Steps

/-! ## Every event has an outcome -/

section Functions

variable {m : MpContexts σ κ} {refs : List Ref} {ledger : Ref → List Ref}

/-- `multipython_start` appends a context, also where it raises `TypeError`. -/
theorem multipythonStart_spec [Zero σ] (linked : WellLinked m refs ledger) (args : StartArgs)
    {mallocs : StartMallocs} (mallocedNode : Malloced m mallocs.node)
    (mallocedState : Malloced (m.mpNewContextNode mallocs.node).1 mallocs.state)
    (mallocedEntry : ∀ result ∈ m.mpTaskRegister 0 0 mallocs.node mallocs.state,
      Malloced result.1 mallocs.entry) :
    ∃ memory result, multipythonStart m args mallocs = some (memory, result) ∧
      match result with
      | .ok context => context = mallocs.node ∧ Appended m refs mallocs.node 0 memory
      | .error .typeError => Appended m refs mallocs.node 0 memory
      | .error _ => Kept m refs memory := by
  rcases mpTaskRegister_spec linked 0 0 mallocedNode mallocedState with
    failed | ⟨_, middle, registered, appended⟩
  · exact ⟨m, .error .enomem, by simp [multipythonStart, failed],
      ⟨⟨ledger, linked⟩, fun _ _ => .refl _, .refl m⟩⟩
  have notNull := appended.notNull
  cases source : args.source with
  | none =>
    exact ⟨middle, .error .typeError, by simp [multipythonStart, registered, notNull, source],
      appended⟩
  | some length =>
    obtain ⟨middleLedger, middleLinked⟩ := appended.linked
    have member : mallocs.node ∈ refs ++ [mallocs.node] := by simp
    obtain ⟨copied, allocated, kept⟩ := mpContextDynmemAlloc_spec middleLinked member (length + 1)
      mallocs.source (mallocedEntry _ registered)
    have copiedAppended := appended.kept kept
    obtain ⟨copiedLedger, copiedLinked⟩ := copiedAppended.linked
    by_cases exhausted : (if mallocs.entry = 0 then 0 else mallocs.source) = 0
    · have notHead : mallocs.node ≠ copied.contextHead := by
        rw [copiedAppended.globals.contextHead]
        exact fun same => appended.fresh (same ▸ linked.head_mem)
      obtain ⟨memory, removed, spec⟩ := mpContextRemove_spec copiedLinked member notHead
      exact ⟨memory, .error .enomem,
        by simp [multipythonStart, registered, notNull, source, allocated, exhausted, removed],
        copiedAppended.removed spec⟩
    · let node : MpContextNode :=
        { copied.nodeOf mallocs.node with
          args := { (copied.nodeOf mallocs.node).args with
            inputKind := if args.type = some (mpParseSingleInput : Int) then mpParseSingleInput
              else mpParseFileInput
            source := if mallocs.entry = 0 then 0 else mallocs.source
            suspend := ((args.suspend.getD 0) % 256).toNat } }
      have written : Appended m refs mallocs.node node.id (copied.setContext mallocs.node node) :=
        copiedAppended.setContext rfl rfl rfl rfl
      rw [show node.id = 0 from copiedAppended.id_eq] at written
      exact ⟨copied.setContext mallocs.node node, .ok mallocs.node,
        by simp [multipythonStart, registered, notNull, source, allocated, exhausted,
          copiedLinked.loaded member, node], rfl, written⟩

theorem multipythonEndTask_spec (linked : WellLinked m refs ledger) (taskID : Nat) :
    (∃ raised, multipythonEndTask m taskID = some (m, .error raised) ∧
        (taskID = 0 ∨ m.mpContextByTid taskID = some m.contextHead ∨
          m.mpContextByTid taskID = some 0)) ∨
      taskID ≠ 0 ∧ ∃ context ∈ refs, context ≠ m.contextHead ∧
        m.mpContextByTid taskID = some context ∧ (m.nodeOf context).id = taskID ∧
        ∃ memory, multipythonEndTask m taskID = some (memory, .ok ()) ∧
          Removed m refs context memory := by
  have headNotNull := linked.chain.ne_zero _ linked.head_mem
  rcases mpTaskRemove_spec linked taskID with ⟨_, isHead | isNull⟩ |
    ⟨context, member, notHead, found, isId, memory, ran, removed⟩
  · exact Or.inl ⟨.eacces, by simp [multipythonEndTask, isHead], Or.inr (Or.inl isHead)⟩
  · exact Or.inl ⟨.enxio, by simp [multipythonEndTask, isNull, headNotNull.symm],
      Or.inr (Or.inr isNull)⟩
  · by_cases noTask : taskID = 0
    · exact Or.inl ⟨.enxio, by rw [multipythonEndTask, found]; simp [notHead, noTask], Or.inl noTask⟩
    · have notNull := linked.chain.ne_zero context member
      exact Or.inr ⟨noTask, context, member, notHead, found, isId, memory,
        by simp [multipythonEndTask, found, notHead, noTask, notNull, ran], removed⟩

theorem mpThreadInit_spec (linked : WellLinked m refs ledger) {core : κ}
    (member : m.activeContexts core ∈ refs) (size : Nat) {mallocEntry : Ref} (mallocMem : Ref)
    (malloced : Malloced m mallocEntry) :
    ∃ memory, Kept m refs memory ∧
      (mpThreadInit m core size mallocEntry mallocMem = some (memory, none) ∨
        ∃ threadCtrl, mpThreadInit m core size mallocEntry mallocMem =
          some (memory.setContext (m.activeContexts core)
            { memory.nodeOf (m.activeContexts core) with threadctrl := threadCtrl },
            some (m.activeContexts core))) := by
  have notNull := linked.chain.ne_zero _ member
  have keptAlready : Kept m refs m := ⟨⟨ledger, linked⟩, fun _ _ => .refl _, .refl m⟩
  rcases linked.byTid_cases (m.currentTIDs core) with ⟨found, _⟩ | ⟨owner, ownerMember, found, _⟩
  · exact ⟨m, keptAlready, Or.inl (by simp [mpThreadInit, notNull, found])⟩
  have ownerNotNull := linked.chain.ne_zero owner ownerMember
  obtain ⟨memory, allocated, kept⟩ := mpContextDynmemAlloc_spec linked ownerMember size mallocMem
    malloced
  refine ⟨memory, kept, ?_⟩
  by_cases exhausted : (if mallocEntry = 0 then 0 else mallocMem) = 0
  · exact Or.inl (by simp [mpThreadInit, notNull, found, ownerNotNull, allocated, exhausted])
  · obtain ⟨keptLedger, keptLinked⟩ := kept.linked
    have loaded := keptLinked.loaded member
    refine Or.inr ⟨if mallocEntry = 0 then 0 else mallocMem, ?_⟩
    simp [mpThreadInit, notNull, found, ownerNotNull, allocated, exhausted, loaded,
      kept.globals.activeContexts]

theorem unlinkThread_subset (tcb : Nat) (threads : List Nat) : unlinkThread tcb threads ⊆ threads := by
  induction threads with
  | nil => exact List.nil_subset _
  | cons id rest ih =>
    rw [unlinkThread]
    split
    · exact List.subset_cons_self id rest
    · exact List.subset_cons_of_subset id ih

end Functions

/-- Every promised event that is defined has one of the outcomes. -/
theorem Runtime.Step.outcome [Zero σ] [DecidableEq κ] [Zero Obj] {s after : Runtime σ κ Obj}
    {refs : List Ref} {event : RuntimeEvent κ Obj} {equal : Obj → Obj → Except ε Bool}
    {mpConstNone : Obj} (holds : RuntimeLinked s refs)
    (stepped : s.Step equal mpConstNone event after) : ∃ later, Outcome s refs event after later := by
  obtain ⟨promised, ran⟩ := stepped
  obtain ⟨ledger, linked⟩ := holds.linked
  have headNotNull := linked.chain.ne_zero _ linked.head_mem
  cases event with
  | multipythonStart args mallocs task =>
    obtain ⟨mallocedNode, mallocedState, mallocedEntry⟩ := promised
    obtain ⟨memory, result, started, spec⟩ :=
      multipythonStart_spec linked args mallocedNode mallocedState mallocedEntry
    simp only [Runtime.step, started, Option.bind_eq_bind, Option.bind_some] at ran
    match result, spec with
    | .ok _, ⟨rfl, appended⟩ =>
      obtain rfl := Option.some.inj ran
      exact ⟨_, .started task appended⟩
    | .error .typeError, appended =>
      obtain rfl := Option.some.inj ran
      exact ⟨_, .started none appended⟩
    | .error .enomem, kept =>
      obtain rfl := Option.some.inj ran
      exact ⟨_, .notStarted kept⟩
    | .error .eacces, kept =>
      obtain rfl := Option.some.inj ran
      exact ⟨_, .notStarted kept⟩
    | .error .enxio, kept =>
      obtain rfl := Option.some.inj ran
      exact ⟨_, .notStarted kept⟩
  | taskEntry core context =>
    have member := (holds.waiting _ promised).1
    simp only [Runtime.step, multipythonTaskEntry_spec linked core member, Option.bind_eq_bind,
      Option.bind_some] at ran
    obtain rfl := Option.some.inj ran
    exact ⟨_, .entered member⟩
  | mpTaskSwitchedIn core tID =>
    rcases mpTaskSwitchedIn_spec linked core tID with ⟨same, nobody⟩ |
      ⟨ref, member, found, isId, switched⟩
    · simp only [Runtime.step, same, Option.bind_eq_bind, Option.bind_some] at ran
      obtain rfl := Option.some.inj ran
      exact ⟨_, .unclaimed nobody⟩
    · simp only [Runtime.step, switched, Option.bind_eq_bind, Option.bind_some] at ran
      obtain rfl := Option.some.inj ran
      exact ⟨_, .switched member found isId⟩
  | multipythonEndTask taskID =>
    rcases multipythonEndTask_spec linked taskID with ⟨raised, refused, reason⟩ |
      ⟨isTask, context, member, notHead, found, isId, memory, removed, spec⟩
    · have nothing : s.removes (.multipythonEndTask taskID) = none := by
        refine Option.eq_none_iff_forall_ne_some.mpr fun context removes => ?_
        obtain ⟨tID, isTarget, notNull, found, notHead, isContext⟩ := Runtime.removes_iff.mp removes
        obtain rfl : taskID = tID := Option.some.inj isTarget
        rcases reason with noTask | isHead | isNull
        · exact notNull noTask
        · exact notHead (Option.some.inj (found.symm.trans isHead))
        · exact isContext (Option.some.inj (found.symm.trans isNull))
      rcases linked.byTid_cases taskID with ⟨found, _⟩ | ⟨other, _, found, _⟩
      all_goals
        simp only [Runtime.step, found, refused, Option.bind_eq_bind, Option.bind_some] at ran
        obtain rfl := Option.some.inj ran
        exact ⟨_, .notEnded nothing rfl⟩
    · simp only [Runtime.step, found, removed, Option.bind_eq_bind, Option.bind_some] at ran
      obtain rfl := Option.some.inj ran
      exact ⟨_, .ended (Runtime.removes_iff.mpr ⟨taskID, rfl, isTask, found, notHead,
        linked.chain.ne_zero context member⟩) member (isId ▸ isTask) spec⟩
  | taskFinished core =>
    rcases mpTaskRemove_spec linked (s.memory.currentTIDs core) with ⟨same, reason⟩ |
      ⟨context, member, notHead, found, isId, memory, removed, spec⟩
    · have nothing : s.removes (.taskFinished core) = none := by
        refine Option.eq_none_iff_forall_ne_some.mpr fun context removes => ?_
        obtain ⟨tID, isTarget, notNull, found, notHead, isContext⟩ := Runtime.removes_iff.mp removes
        obtain rfl : s.memory.currentTIDs core = tID := Option.some.inj isTarget
        rcases reason with isHead | isNull
        · exact notHead (Option.some.inj (found.symm.trans isHead))
        · exact isContext (Option.some.inj (found.symm.trans isNull))
      rcases reason with isHead | isNull
      · simp only [Runtime.step, isHead, same, Option.bind_eq_bind, Option.bind_some, true_or,
          if_true] at ran
        obtain rfl := Option.some.inj ran
        exact ⟨_, .notEnded nothing rfl⟩
      · simp only [Runtime.step, isNull, same, Option.bind_eq_bind, Option.bind_some, or_true,
          if_true] at ran
        obtain rfl := Option.some.inj ran
        exact ⟨_, .notEnded nothing rfl⟩
    · have notNull := linked.chain.ne_zero context member
      simp only [Runtime.step, found, removed, Option.bind_eq_bind, Option.bind_some, notHead,
        notNull, or_self, if_false] at ran
      obtain rfl := Option.some.inj ran
      exact ⟨_, .ended (Runtime.removes_iff.mpr ⟨_, rfl, promised, found, notHead, notNull⟩)
        member (isId ▸ promised) spec⟩
  | mpThreadInit core size mallocEntry mallocMem =>
    obtain ⟨malloced, listed, _, main⟩ := promised
    have member := linked.contextList_eq ▸ listed
    obtain ⟨memory, kept, failed | ⟨threadCtrl, made⟩⟩ :=
      mpThreadInit_spec linked member size mallocMem malloced
    · simp only [Runtime.step, failed, Option.bind_eq_bind, Option.bind_some] at ran
      obtain rfl := Option.some.inj ran
      exact ⟨_, .noThreads kept⟩
    · simp only [Runtime.step, made, Option.bind_eq_bind, Option.bind_some] at ran
      obtain rfl := Option.some.inj ran
      exact ⟨_, .threadInit member main kept⟩
  | mpThreadCreate core handle =>
    have nothing : s.removes (.mpThreadCreate core handle) = none := rfl
    rcases promised with isNull | listed
    · simp only [Runtime.step, mpThreadContext, isNull, if_true, Option.bind_eq_bind,
        Option.bind_some] at ran
      obtain rfl := Option.some.inj ran
      exact ⟨_, .notEnded nothing rfl⟩
    · have member := linked.contextList_eq ▸ listed
      have notNull := linked.chain.ne_zero _ member
      by_cases threadless : (s.memory.nodeOf (s.memory.activeContexts core)).threadctrl = 0
      · simp only [Runtime.step, mpThreadContext, notNull, if_false, linked.loaded member,
          threadless, if_true, Option.bind_eq_bind, Option.bind_some] at ran
        obtain rfl := Option.some.inj ran
        exact ⟨_, .notEnded nothing rfl⟩
      · simp only [Runtime.step, mpThreadContext, notNull, if_false, linked.loaded member,
          threadless, Option.bind_eq_bind, Option.bind_some] at ran
        obtain rfl := Option.some.inj ran
        exact ⟨_, .threadCreated member⟩
  | mpThreadAdded context handle =>
    obtain rfl := Option.some.inj ran
    exact ⟨_, .threadAdded (holds.spawned _ promised)⟩
  | vPortCleanUpTCB tcb =>
    cases found : contextOfThread s.memory s.threads tcb with
    | none =>
      simp only [Runtime.step, found] at ran
      obtain rfl := Option.some.inj ran
      exact ⟨_, .cleanedUp fun ref => List.Subset.refl _⟩
    | some context =>
      simp only [Runtime.step, found] at ran
      obtain rfl := Option.some.inj ran
      refine ⟨_, .cleanedUp fun ref => ?_⟩
      by_cases here : ref = context
      · rw [here, Function.update_self]
        exact unlinkThread_subset tcb _
      · rw [Function.update_of_ne here]
        exact List.Subset.refl _
  | responseMakeNew args mallocResponse mallocNode =>
    obtain rfl := Option.some.inj ran
    by_cases malloced : (mallocResponse && mallocNode) = true
    · refine ⟨_, .responded rfl rfl (by simp [multipythonResponseMakeNew, malloced]; rfl) ?_⟩
      intro node member
      rw [List.mem_singleton.mp member]
    · exact ⟨_, .answered rfl rfl (by simp [multipythonResponseMakeNew, malloced])⟩
  | notify condition =>
    obtain rfl := Option.some.inj ran
    exact ⟨_, .answered rfl rfl
      (multipythonNotify_followed equal mpConstNone condition s.responses).2⟩
  | checkResponses core =>
    cases loaded : s.memory.contexts (s.memory.activeContexts core) with
    | none => simp [Runtime.step, loaded] at ran
    | some node =>
      simp only [Runtime.step, loaded, Option.bind_eq_bind, Option.bind_some] at ran
      obtain rfl := Option.some.inj ran
      exact ⟨_, .answered rfl rfl rfl⟩

end MultiPython.Esp32
