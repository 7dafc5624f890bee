import MultiPython.Esp32.ActiveContext

/-!
# The context that a thread runs under

`mp_task_switched_in` knows a task by the id of a context, so it switches to the right
context for main tasks only. A thread runs under whatever context was active on its core
before. `ContextRuns` says that every core runs its task under the context the task
belongs to; it survives exactly the events that meet `SwitchesRight`.
-/

namespace MultiPython.Esp32

open Context Logic List Option Function

variable {σ κ Obj ε : Type}

namespace Runtime

variable (s : Runtime σ κ Obj)

/-- A task is the main task of a listed context, or in its list of threads. -/
def Belongs (tID : Nat) (ref : Ref) : Prop :=
  tID ≠ 0 ∧ ref ∈ s.memory.contextList ∧
    ((s.memory.nodeOf ref).id = tID ∨ (s.memory.nodeOf ref).threadctrl ≠ 0 ∧ tID ∈ s.threads ref)

/-- A context is the active one of a core, and its state the one that the core's macros
reach. -/
def Under (core : κ) (ref : Ref) : Prop :=
  s.memory.activeContexts core = ref ∧
    (s.memory.activeContextMirrors core).state = (s.memory.nodeOf ref).state

/-- Every core runs its task under the context that the task belongs to. -/
def ContextRuns : Prop :=
  ∀ core ref, s.Belongs (s.memory.currentTIDs core) ref → s.Under core ref

/-- No two cores run the same task. -/
def OneCore : Prop :=
  ∀ core other, s.memory.currentTIDs core = s.memory.currentTIDs other →
    s.memory.currentTIDs core ≠ 0 → core = other

/-- A task that is switched in is the main task of the context it belongs to, or finds that
context active already. A thread that runs when it is put into the list of its context
runs under that context, and the handle of a main task is not used by another context. -/
def SwitchesRight : RuntimeEvent κ Obj → Prop
  | .mpTaskSwitchedIn core tID =>
    ∀ ref, s.Belongs tID ref → s.memory.mpContextByTid tID = some ref ∨
      s.memory.mpContextByTid tID = some 0 ∧ s.Under core ref
  | .mpThreadAdded context handle =>
    handle ≠ 0 → (s.memory.nodeOf context).threadctrl ≠ 0 →
      ∀ core, s.memory.currentTIDs core = handle → s.Under core context
  | .taskEntry core context =>
    ∀ ref, ref ≠ context → ¬s.Belongs (s.memory.currentTIDs core) ref
  | _ => True

instance (tID : Nat) (ref : Ref) : Decidable (s.Belongs tID ref) :=
  inferInstanceAs (Decidable (_ ∧ _ ∧ (_ ∨ _ ∧ _)))

instance (core : κ) (ref : Ref) : Decidable (s.Under core ref) := inferInstanceAs (Decidable (_ ∧ _))

instance [Fintype κ] (event : RuntimeEvent κ Obj) : Decidable (s.SwitchesRight event) :=
  match event with
  | .mpTaskSwitchedIn core tID =>
    decidable_of_iff (∀ ref ∈ s.memory.contextList, s.Belongs tID ref →
        s.memory.mpContextByTid tID = some ref ∨
          s.memory.mpContextByTid tID = some 0 ∧ s.Under core ref)
      ⟨fun right ref belongs => right ref belongs.2.1 belongs, fun right ref _ => right ref⟩
  | .mpThreadAdded context handle =>
    inferInstanceAs (Decidable (handle ≠ 0 → (s.memory.nodeOf context).threadctrl ≠ 0 →
      ∀ core, s.memory.currentTIDs core = handle → s.Under core context))
  | .taskEntry core context =>
    decidable_of_iff (∀ ref ∈ s.memory.contextList, ref ≠ context →
        ¬s.Belongs (s.memory.currentTIDs core) ref)
      ⟨fun right ref different belongs => right ref belongs.2.1 different belongs,
        fun right ref _ => right ref⟩
  | .multipythonStart _ _ _ | .multipythonEndTask _ | .taskFinished _ | .mpThreadInit _ _ _ _
  | .mpThreadCreate _ _ | .vPortCleanUpTCB _ | .responseMakeNew _ _ _ | .notify _
  | .checkResponses _ => .isTrue trivial

end Runtime

section Steps

variable {s after : Runtime σ κ Obj} {refs later : List Ref} {event : RuntimeEvent κ Obj}
  {tID : Nat} {ref : Ref}

theorem RuntimeLinked.belongs_iff (holds : RuntimeLinked s refs) :
    s.Belongs tID ref ↔ tID ≠ 0 ∧ ref ∈ refs ∧ ((s.memory.nodeOf ref).id = tID ∨
      (s.memory.nodeOf ref).threadctrl ≠ 0 ∧ tID ∈ s.threads ref) := by
  obtain ⟨ledger, linked⟩ := holds.linked
  rw [Runtime.Belongs, linked.contextList_eq]

theorem contextRuns_of_fewer (globals : SameGlobals s.memory after.memory)
    (fewer : ∀ {tID ref}, after.Belongs tID ref → s.Belongs tID ref ∧
      (after.memory.nodeOf ref).state = (s.memory.nodeOf ref).state)
    (runs : s.ContextRuns) : after.ContextRuns := by
  intro core ref belongs
  obtain ⟨before, state⟩ := fewer belongs
  rw [globals.currentTIDs] at before
  obtain ⟨active, mirrored⟩ := runs core ref before
  refine ⟨?_, ?_⟩
  · rw [globals.activeContexts]
    exact active
  · rw [globals.activeContextMirrors, state]
    exact mirrored

theorem belongs_of_same (holds : RuntimeLinked s refs) (holdsAfter : RuntimeLinked after later)
    (member : ref ∈ refs) (same : SameButLinks (s.memory.nodeOf ref) (after.memory.nodeOf ref))
    (threads : after.threads ref ⊆ s.threads ref) (belongs : after.Belongs tID ref) :
    s.Belongs tID ref ∧ (after.memory.nodeOf ref).state = (s.memory.nodeOf ref).state := by
  obtain ⟨isTask, _, role⟩ := holdsAfter.belongs_iff.mp belongs
  rw [same.id_eq, same.threadctrl_eq] at role
  exact ⟨holds.belongs_iff.mpr
    ⟨isTask, member, role.imp_right fun thread => ⟨thread.1, threads thread.2⟩⟩, same.state_eq⟩

theorem contextRuns_of_kept (holds : RuntimeLinked s refs) (holdsAfter : RuntimeLinked after later)
    (runs : s.ContextRuns) (globals : SameGlobals s.memory after.memory)
    (nodes : ∀ ref ∈ later, (after.memory.nodeOf ref).id ≠ 0 ∨
        (after.memory.nodeOf ref).threadctrl ≠ 0 →
      ref ∈ refs ∧ SameButLinks (s.memory.nodeOf ref) (after.memory.nodeOf ref))
    (threads : ∀ ref, after.threads ref ⊆ s.threads ref) : after.ContextRuns := by
  refine contextRuns_of_fewer globals (fun {tID ref} belongs => ?_) runs
  obtain ⟨isTask, member, role⟩ := holdsAfter.belongs_iff.mp belongs
  have named : (after.memory.nodeOf ref).id ≠ 0 ∨ (after.memory.nodeOf ref).threadctrl ≠ 0 := by
    rcases role with isId | ⟨threaded, _⟩
    · exact Or.inl (isId ▸ isTask)
    · exact Or.inr threaded
  obtain ⟨listed, same⟩ := nodes ref member named
  exact belongs_of_same holds holdsAfter listed same (threads ref) belongs

variable {core : κ}

/-- What `mp_task_switched_in` finds decides whether the task runs under its context. -/
theorem switchesRight_switchedIn_iff (found : s.memory.mpContextByTid tID = some ref)
    (isContext : ref ≠ 0) :
    s.SwitchesRight (.mpTaskSwitchedIn core tID) ↔ ∀ other, s.Belongs tID other → other = ref := by
  refine forall₂_congr fun other _ => ?_
  rw [found, some.injEq, some.injEq]
  constructor
  · rintro (same | ⟨isNull, _⟩)
    · exact same.symm
    · exact absurd isNull isContext
  · exact fun same => Or.inl same.symm

theorem switchesRight_of_plain (plain : event.switches = false) : s.SwitchesRight event := by
  cases event with
  | taskEntry | mpTaskSwitchedIn | mpThreadAdded => cases plain
  | _ => trivial

/-- `mp_thread_init` adds the main task to the threads of its own context. -/
theorem contextRuns_threadInit (holds : RuntimeLinked s refs) (runs : s.ContextRuns)
    {memory : MpContexts σ κ} {threadCtrl : Ref} (member : s.memory.activeContexts core ∈ refs)
    (main : (s.memory.nodeOf (s.memory.activeContexts core)).id = s.memory.currentTIDs core)
    (kept : Kept s.memory refs memory) (holdsAfter : RuntimeLinked { s with
      memory := memory.setContext (s.memory.activeContexts core)
        { memory.nodeOf (s.memory.activeContexts core) with threadctrl := threadCtrl }
      threads := Function.update s.threads (s.memory.activeContexts core)
        [s.memory.currentTIDs core] } refs) :
    Runtime.ContextRuns { s with
      memory := memory.setContext (s.memory.activeContexts core)
        { memory.nodeOf (s.memory.activeContexts core) with threadctrl := threadCtrl }
      threads := Function.update s.threads (s.memory.activeContexts core)
        [s.memory.currentTIDs core] } := by
  refine contextRuns_of_fewer ⟨kept.globals.1, kept.globals.2, kept.globals.3, kept.globals.4⟩
    (fun {tID ref} belongs => ?_) runs
  obtain ⟨isTask, listed, role⟩ := holdsAfter.belongs_iff.mp belongs
  have same := kept.others ref listed
  by_cases here : ref = s.memory.activeContexts core
  · subst here
    rw [MpContexts.setContext_nodeOf, if_pos rfl] at role
    refine ⟨holds.belongs_iff.mpr ⟨isTask, member, Or.inl ?_⟩, ?_⟩
    · rcases role with isId | ⟨_, isThread⟩
      · exact same.id_eq.symm.trans isId
      · simp only [update_self, mem_singleton] at isThread
        exact main.trans isThread.symm
    · rw [MpContexts.setContext_nodeOf, if_pos rfl]
      exact same.state_eq
  · have node : (memory.setContext (s.memory.activeContexts core)
        { memory.nodeOf (s.memory.activeContexts core) with threadctrl := threadCtrl }).nodeOf ref =
        memory.nodeOf ref := (memory.setContext_nodeOf _ _ _).trans (if_neg here)
    refine belongs_of_same holds holdsAfter listed (node ▸ same) ?_ belongs
    simp only [update_of_ne here]
    exact List.Subset.refl _

theorem contextRuns_threadAdded_iff (holds : RuntimeLinked s refs) (runs : s.ContextRuns)
    {context : Ref} {handle : Nat} (member : context ∈ refs) {spawned : List (Ref × Nat)}
    (holdsAfter : RuntimeLinked { s with
      threads := Function.update s.threads context (handle :: s.threads context)
      spawned := spawned } refs) :
    Runtime.ContextRuns { s with
        threads := Function.update s.threads context (handle :: s.threads context)
        spawned := spawned } ↔
      s.SwitchesRight (.mpThreadAdded context handle) := by
  constructor
  · intro runsAfter isTask threaded core current
    refine runsAfter core context (holdsAfter.belongs_iff.mpr ?_)
    simp only [update_self]
    rw [current]
    exact ⟨isTask, member, Or.inr ⟨threaded, mem_cons_self⟩⟩
  · intro right core ref belongs
    obtain ⟨isTask, listed, role⟩ := holdsAfter.belongs_iff.mp belongs
    by_cases here : ref = context
    · subst here
      rcases role with isId | ⟨threaded, isThread⟩
      · exact runs core ref (holds.belongs_iff.mpr ⟨isTask, listed, Or.inl isId⟩)
      · simp only [update_self, mem_cons] at isThread
        rcases isThread with isNew | before
        · exact right (isNew ▸ isTask) threaded core isNew
        · exact runs core ref (holds.belongs_iff.mpr ⟨isTask, listed, Or.inr ⟨threaded, before⟩⟩)
    · simp only [update_of_ne here] at role
      exact runs core ref (holds.belongs_iff.mpr ⟨isTask, listed, role⟩)

variable [DecidableEq κ]

/-- The task of a context enters it. -/
theorem contextRuns_entered_iff (holds : RuntimeLinked s refs) (runs : s.ContextRuns)
    (oneCore : s.OneCore) {context : Ref} {waiting : List (Ref × Nat)}
    (holdsAfter : RuntimeLinked { s with
      memory := (s.memory.identified core context).switched core context
      waiting := waiting } refs) :
    Runtime.ContextRuns { s with
        memory := (s.memory.identified core context).switched core context
        waiting := waiting } ↔
      s.SwitchesRight (.taskEntry core context) := by
  have nodeHere : ((s.memory.identified core context).switched core context).nodeOf context =
      { s.memory.nodeOf context with id := s.memory.currentTIDs core } :=
    (s.memory.setContext_nodeOf _ _ _).trans (if_pos rfl)
  have nodeOther : ∀ ref, ref ≠ context →
      ((s.memory.identified core context).switched core context).nodeOf ref = s.memory.nodeOf ref :=
    fun ref different => (s.memory.setContext_nodeOf _ _ _).trans (if_neg different)
  constructor
  · intro runsAfter ref different belongs
    obtain ⟨isTask, listed, role⟩ := holds.belongs_iff.mp belongs
    have under := runsAfter core ref (holdsAfter.belongs_iff.mpr (by
      rw [nodeOther ref different]
      exact ⟨isTask, listed, role⟩))
    exact different (under.1.symm.trans (update_self _ _ _))
  · intro right other ref belongs
    obtain ⟨isTask, listed, role⟩ := holdsAfter.belongs_iff.mp belongs
    have isTask : s.memory.currentTIDs other ≠ 0 := isTask
    by_cases same : ref = context
    · subst same
      by_cases here : other = core
      · subst here
        refine ⟨update_self _ _ _, ?_⟩
        exact congrArg MpContextNode.state (update_self _ _ _)
      · -- Its own task runs on the other core, so this one is a thread that was there before.
        have before : s.Belongs (s.memory.currentTIDs other) ref := by
          refine holds.belongs_iff.mpr ⟨isTask, listed, Or.inr ?_⟩
          rw [nodeHere] at role
          rcases role with isId | thread
          · exact absurd (oneCore other core isId.symm isTask) here
          · exact thread
        obtain ⟨active, mirrored⟩ := runs other ref before
        refine ⟨(update_of_ne here _ _).trans active, ?_⟩
        rw [nodeHere]
        exact (congrArg MpContextNode.state (update_of_ne here _ _)).trans mirrored
    · rw [nodeOther ref same] at role
      have before : s.Belongs (s.memory.currentTIDs other) ref :=
        holds.belongs_iff.mpr ⟨isTask, listed, role⟩
      by_cases here : other = core
      · subst here
        exact absurd before (right ref same)
      · obtain ⟨active, mirrored⟩ := runs other ref before
        refine ⟨(update_of_ne here _ _).trans active, ?_⟩
        rw [nodeOther ref same]
        exact (congrArg MpContextNode.state (update_of_ne here _ _)).trans mirrored

/-- A core switches to a task: what its task belongs to has to be active, and the other cores
are as they were. -/
theorem contextRuns_switched_iff (runs : s.ContextRuns) (memory : MpContexts σ κ)
    (listed : memory.contextList = s.memory.contextList)
    (nodes : ∀ ref, memory.nodeOf ref = s.memory.nodeOf ref)
    (current : memory.currentTIDs = Function.update s.memory.currentTIDs core tID)
    (others : ∀ other, other ≠ core →
      memory.activeContexts other = s.memory.activeContexts other ∧
        memory.activeContextMirrors other = s.memory.activeContextMirrors other) :
    Runtime.ContextRuns { s with memory := memory } ↔
      ∀ ref, s.Belongs tID ref → Runtime.Under { s with memory := memory } core ref := by
  have belongs : ∀ id ref, Runtime.Belongs { s with memory := memory } id ref ↔ s.Belongs id ref := by
    intro id ref
    simp only [Runtime.Belongs, listed, nodes]
  have here : memory.currentTIDs core = tID := by rw [current, update_self]
  constructor
  · intro runsAfter ref before
    refine runsAfter core ref ((belongs _ ref).mpr ?_)
    simpa only [here] using before
  · intro right other ref now
    by_cases same : other = core
    · subst same
      refine right ref ((belongs tID ref).mp ?_)
      simpa only [here] using now
    · have before : s.Belongs (s.memory.currentTIDs other) ref := by
        have unchanged : memory.currentTIDs other = s.memory.currentTIDs other := by
          rw [current, update_of_ne same]
        simpa only [unchanged] using (belongs _ ref).mp now
      obtain ⟨active, mirrored⟩ := runs other ref before
      obtain ⟨sameActive, sameMirror⟩ := others other same
      exact ⟨sameActive.trans active, by
        rw [sameMirror, nodes]
        exact mirrored⟩

variable [Zero Obj]

/-- An event leaves every core under the right context exactly if it switches right. -/
theorem Outcome.contextRuns_step_iff (holds : RuntimeLinked s refs) (oneCore : s.OneCore)
    (runs : s.ContextRuns) (outcome : Outcome s refs event after later) :
    after.ContextRuns ↔ s.SwitchesRight event := by
  have holdsAfter := outcome.linked holds
  have all : ∀ ref, s.threads ref ⊆ s.threads ref := fun _ => List.Subset.refl _
  obtain ⟨ledger, linked⟩ := holds.linked
  cases outcome with
  | notStarted kept =>
    refine iff_of_true (contextRuns_of_kept holds holdsAfter runs kept.globals
      (fun ref member _ => ⟨member, kept.others ref member⟩) all) trivial
  | @started args mallocs task memory created appended =>
    refine iff_of_true ?_ trivial
    have globals : SameGlobals s.memory
        ((s.begun memory mallocs.node).assigned mallocs.node created).memory := by
      cases created <;> exact appended.globals
    have nodes : ((s.begun memory mallocs.node).assigned mallocs.node created).memory = memory := by
      cases created <;> rfl
    have threads : ((s.begun memory mallocs.node).assigned mallocs.node created).threads =
        s.threads := by
      cases created <;> rfl
    refine contextRuns_of_kept holds holdsAfter runs globals
      (fun ref member named => ?_) (threads ▸ all)
    rw [nodes] at named ⊢
    rcases mem_append.mp member with before | isNew
    · exact ⟨before, appended.others ref before⟩
    · rw [mem_singleton.mp isNew, appended.id_eq, appended.threadless] at named
      exact absurd rfl (named.elim id id)
  | entered member => exact contextRuns_entered_iff holds runs oneCore holdsAfter
  | @unclaimed core tID nobody =>
    have found : s.memory.mpContextByTid tID = some 0 := by
      rcases linked.byTid_cases tID with ⟨found, _⟩ | ⟨ref, member, _, isId⟩
      · exact found
      · exact absurd isId (nobody ref member)
    rw [contextRuns_switched_iff runs (s.memory.running core tID) rfl (fun _ => rfl) rfl
      fun _ _ => ⟨rfl, rfl⟩]
    refine forall₂_congr fun ref belongs => ?_
    obtain ⟨_, member, _⟩ := holds.belongs_iff.mp belongs
    have notNull := linked.chain.ne_zero ref member
    rw [found, some.injEq]
    exact ⟨fun under => Or.inr ⟨rfl, under⟩, fun right =>
      (right.resolve_left notNull.symm).2⟩
  | @switched core tID found member isFound isId =>
    rw [switchesRight_switchedIn_iff isFound (linked.chain.ne_zero found member),
      contextRuns_switched_iff runs ((s.memory.running core tID).switched core found)
        rfl (fun _ => rfl) rfl fun other different =>
        ⟨update_of_ne different _ _, update_of_ne different _ _⟩]
    refine forall₂_congr fun ref _ => ⟨fun under => ?_, fun same => ?_⟩
    · exact under.1.symm.trans (update_self _ _ _)
    · subst same
      exact ⟨update_self _ _ _, congrArg MpContextNode.state (update_self _ _ _)⟩
  | @ended event context memory removes member named removed =>
    have right : s.SwitchesRight event := by
      cases event with
      | mpTaskSwitchedIn | mpThreadAdded | taskEntry => cases removes
      | _ => trivial
    refine iff_of_true (contextRuns_of_kept holds holdsAfter runs
      removed.globals (fun ref stays _ => ?_) all) right
    exact ⟨mem_of_mem_erase stays, removed.others ref stays⟩
  | notEnded nothing plain => exact iff_of_true runs (switchesRight_of_plain plain)
  | noThreads kept =>
    exact iff_of_true (contextRuns_of_kept holds holdsAfter runs kept.globals
      (fun ref member _ => ⟨member, kept.others ref member⟩) all) trivial
  | threadInit member main kept =>
    exact iff_of_true (contextRuns_threadInit holds runs member main kept holdsAfter) trivial
  | threadCreated member => exact iff_of_true runs trivial
  | threadAdded member => exact contextRuns_threadAdded_iff holds runs member holdsAfter
  | cleanedUp fewer =>
    exact iff_of_true (contextRuns_of_kept holds holdsAfter runs (.refl _)
      (fun ref member _ => ⟨member, .refl _⟩) fewer) trivial
  | responded untargeted plain => exact iff_of_true runs (switchesRight_of_plain plain)

/-- Only `mp_task_switched_in` changes which task runs on a core. -/
theorem Outcome.oneCore [Zero σ] (outcome : Outcome s refs event after later)
    (promised : s.Promised event) (oneCore : s.OneCore) : after.OneCore := by
  have kept : ∀ {memory : MpContexts σ κ}, memory.currentTIDs = s.memory.currentTIDs →
      Runtime.OneCore { s with memory := memory } := by
    intro memory same core other
    simp only [same]
    exact oneCore core other
  have ran : ∀ {core : κ} {tID : Nat}, (∀ other, other ≠ core → s.memory.currentTIDs other ≠ tID) →
      ∀ {memory : MpContexts σ κ},
        memory.currentTIDs = Function.update s.memory.currentTIDs core tID →
          Runtime.OneCore { s with memory := memory } := by
    intro core tID alone memory updated one other
    simp only [updated]
    by_cases oneHere : one = core
    · by_cases otherHere : other = core
      · exact fun _ _ => oneHere.trans otherHere.symm
      · rw [oneHere, update_self, update_of_ne otherHere]
        exact fun same _ => absurd same.symm (alone other otherHere)
    · rw [update_of_ne oneHere]
      by_cases otherHere : other = core
      · rw [otherHere, update_self]
        exact fun same _ => absurd same (alone one oneHere)
      · rw [update_of_ne otherHere]
        exact oneCore one other
  cases outcome with
  | notStarted outcome | noThreads outcome => exact kept outcome.globals.currentTIDs
  | @started args mallocs task memory created appended =>
    cases created <;> exact kept appended.globals.currentTIDs
  | threadInit _ _ outcome => exact kept outcome.globals.currentTIDs
  | ended _ _ _ removed => exact kept removed.globals.currentTIDs
  | unclaimed => exact ran promised rfl
  | switched => exact ran promised rfl
  | entered => exact kept rfl
  | notEnded | threadCreated | threadAdded | cleanedUp | responded => exact oneCore

end Steps

/-- In a run every core runs its task under the context that the task belongs to, if and only if
every event switches right. -/
theorem contextRuns_iff [Zero σ] [DecidableEq κ] [Zero Obj]
    {equal : Obj → Obj → Except ε Bool} {mpConstNone : Obj} {defaultContext defaultState : Ref}
    {state : σ} {mainTask : Nat} {run : List (RuntimeEvent κ Obj × Runtime σ κ Obj)}
    (notNull : defaultContext ≠ 0) (bounded : defaultContext < addressSpace)
    (runs : Run (Runtime.Step equal mpConstNone)
      (Runtime.initial defaultContext defaultState state mainTask) run) :
    (∀ s ∈ visited (Runtime.initial defaultContext defaultState state mainTask) run,
        s.ContextRuns) ↔
      ∀ taken ∈ fired (Runtime.initial defaultContext defaultState state mainTask) run,
        taken.1.SwitchesRight taken.2 := by
  refine runs.forall_iff (fun s => (∃ refs, RuntimeLinked s refs) ∧ s.OneCore)
    Runtime.SwitchesRight
    ⟨⟨_, Runtime.initial_linked defaultState state mainTask notNull bounded⟩,
      fun _ _ _ running => absurd rfl running⟩
    (fun _ _ belongs => absurd rfl belongs.1) ?_ ?_
  · rintro s event after ⟨⟨refs, holds⟩, oneCore⟩ stepped
    obtain ⟨later, outcome⟩ := stepped.outcome holds
    exact ⟨⟨later, outcome.linked holds⟩, outcome.oneCore stepped.1 oneCore⟩
  · rintro s event after ⟨⟨refs, holds⟩, oneCore⟩ runsBefore stepped
    obtain ⟨later, outcome⟩ := stepped.outcome holds
    exact outcome.contextRuns_step_iff holds oneCore runsBefore

/-- A thread of the main context runs on the core of the main task. -/
theorem contextRuns_main_thread :
    let start : Runtime Nat Bool Nat := Runtime.initial 4 8 0 100
    let run := trace (Runtime.step · (fun _ _ => Except.ok (ε := Unit) false) 0) start
      [.mpTaskSwitchedIn false 100, .taskEntry false 4, .mpThreadInit false 40 12 16,
        .mpThreadCreate false 300, .mpThreadAdded 4 300, .mpTaskSwitchedIn false 300,
        .vPortCleanUpTCB 300]
    run.length = 7 ∧ ∀ s ∈ visited start run, s.ContextRuns := by
  intro start run
  have runs : Run (Runtime.Step (fun _ _ => Except.ok (ε := Unit) false) 0) start run :=
    Run.of_trace (fun s event => Runtime.Promised s event)
      (fun promised happens => ⟨promised, happens⟩) _ (by decide)
  exact ⟨by decide, (contextRuns_iff (by decide) (by decide) runs).mpr (by decide)⟩

/-- The same thread runs on the core where another context ran before: it acts on that
context. -/
theorem thread_runs_under_other_context :
    let start : Runtime Nat Bool Nat := Runtime.initial 4 8 0 100
    let run := trace (Runtime.step · (fun _ _ => Except.ok (ε := Unit) false) 0) start
      [.mpTaskSwitchedIn false 100, .taskEntry false 4, .mpThreadInit false 40 12 14,
        .multipythonStart ⟨some 3, none, none⟩ ⟨16, 20, 24, 28⟩ (some 200),
        .mpTaskSwitchedIn true 200, .taskEntry true 16, .mpThreadCreate false 300,
        .mpThreadAdded 4 300, .mpTaskSwitchedIn true 300]
    Run (Runtime.Step (fun _ _ => Except.ok (ε := Unit) false) 0) start run ∧
      ∃ s ∈ visited start run, s.Belongs 300 4 ∧ s.memory.currentTIDs true = 300 ∧
        s.memory.activeContexts true = 16 ∧ ¬s.ContextRuns := by
  intro start run
  refine ⟨Run.of_trace (fun s event => Runtime.Promised s event)
      (fun promised happens => ⟨promised, happens⟩) _ (by decide),
    (run.getLast (by decide)).2, ?_, by decide, by decide,
    by decide, fun runs => ?_⟩
  · exact mem_cons_of_mem _ (List.mem_map_of_mem (getLast_mem _))
  · exact absurd (runs true 4) (by decide)

end MultiPython.Esp32
