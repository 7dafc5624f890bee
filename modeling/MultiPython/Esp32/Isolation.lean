import MultiPython.Context.Registry

/-!
# The states of contexts

Interpreter state is reached through macros: `MP_STATE_VM` and `MP_STATE_MEM` follow the mirror
of the active context, `MP_STATE_THREAD` a pointer that every task keeps for itself. The
main tasks of contexts share a core in time slices, each of which starts with
`mp_task_switched_in`. Whatever the tasks do through the macros, a slice changes the state of
its own context only, and a context ends up where its own slices alone would bring it.
-/

namespace MultiPython.Esp32

open Context Logic List Option Function

/-- `mp_state_ctx_t`; `mem` includes the heap that its pointers delimit. -/
structure MpStateCtx (θ ν μ : Type) where
  thread : θ
  vm : ν
  mem : μ
deriving DecidableEq, Repr

/-- A state as `memset` to zero leaves it. -/
instance {θ ν μ : Type} [Zero θ] [Zero ν] [Zero μ] : Zero (MpStateCtx θ ν μ) := ⟨⟨0, 0, 0⟩⟩

/-- The memory, and the pointer that each task has in its thread local storage. -/
structure Machine (θ ν μ κ : Type) where
  memory : MpContexts (MpStateCtx θ ν μ) κ
  threadState : Nat → Ref

/-- What the main task of a context does between two switches. Every step may read and write
all that the macros reach. -/
structure Slice (θ ν μ : Type) where
  context : Ref
  steps : List (MpStateCtx θ ν μ → MpStateCtx θ ν μ)

variable {θ ν μ κ : Type}

namespace Machine

variable (s : Machine θ ν μ κ) (core : κ)

/-- The `mp_thread_set_state` of `mp_thread_init`. -/
def mpThreadSetState : Machine θ ν μ κ :=
  { s with
    threadState := Function.update s.threadState (s.memory.currentTIDs core)
      (s.memory.activeContextMirrors core).state }

/-- One step: it reads through the macros, and writes through them. -/
def access (step : MpStateCtx θ ν μ → MpStateCtx θ ν μ) : Option (Machine θ ν μ κ) := do
  let active := (s.memory.activeContextMirrors core).state
  let own := s.threadState (s.memory.currentTIDs core)
  let state ← s.memory.states active
  let owner ← s.memory.states own
  let result := step { state with thread := owner.thread }
  let states := Function.update s.memory.states active
    (some { state with vm := result.vm, mem := result.mem })
  let owner ← states own
  some
    { s with
      memory := { s.memory with
        states := Function.update states own (some { owner with thread := result.thread }) } }

variable [DecidableEq κ]

/-- A slice: the main task of the context is switched in and takes its steps. -/
def slice (taken : Slice θ ν μ) : Option (Machine θ ν μ κ) := do
  let memory ← s.memory.mpTaskSwitchedIn core (s.memory.nodeOf taken.context).id
  taken.steps.foldlM (fun s step => s.access core step) { s with memory := memory }

/-- The slices, one after the other. -/
def schedule (slices : List (Slice θ ν μ)) : Option (Machine θ ν μ κ) :=
  slices.foldlM (fun s taken => s.slice core taken) s

omit [DecidableEq κ] in
/-- The state of a context. -/
def stateOf (ref : Ref) : Option (MpStateCtx θ ν μ) := s.memory.states (s.memory.nodeOf ref).state

end Machine

/-- The main task of a context has entered it and called `mp_thread_init`: no other context has
the id, and the task's pointer leads to the context's state. -/
structure Started (s : Machine θ ν μ κ) (refs : List Ref) (ref : Ref) : Prop where
  listed : ref ∈ refs
  named : ∀ other ∈ refs, (s.memory.nodeOf other).id = (s.memory.nodeOf ref).id → other = ref
  pointer : s.threadState (s.memory.nodeOf ref).id = (s.memory.nodeOf ref).state

/-- The two memories differ at most in interpreter states and in what runs on the cores. -/
structure SameContexts (before after : Machine θ ν μ κ) : Prop where
  contexts : after.memory.contexts = before.memory.contexts
  dynmems : after.memory.dynmems = before.memory.dynmems
  head : after.memory.contextHead = before.memory.contextHead
  threadState : after.threadState = before.threadState

variable {before after : Machine θ ν μ κ}

theorem SameContexts.nodeOf_eq (same : SameContexts before after) (ref : Ref) :
    after.memory.nodeOf ref = before.memory.nodeOf ref := by
  rw [MpContexts.nodeOf, same.contexts, MpContexts.nodeOf]

variable {ref : Ref}

theorem SameContexts.started (same : SameContexts before after) {refs : List Ref}
    (started : Started before refs ref) : Started after refs ref := by
  refine ⟨started.listed, fun other member => ?_, ?_⟩
  · rw [same.nodeOf_eq other, same.nodeOf_eq ref]
    exact started.named other member
  · rw [same.nodeOf_eq, same.threadState]
    exact started.pointer

/-- A context runs on the core: the macros reach its state. -/
structure RunsOn (s : Machine θ ν μ κ) (core : κ) (ref : Ref) : Prop where
  mirror : (s.memory.activeContextMirrors core).state = (s.memory.nodeOf ref).state
  pointer : s.threadState (s.memory.currentTIDs core) = (s.memory.nodeOf ref).state

/-- The state of a context has been replaced, and nothing else. -/
def Machine.replaced (s : Machine θ ν μ κ) (ref : Ref) (state : MpStateCtx θ ν μ) :
    Machine θ ν μ κ :=
  { s with
    memory := { s.memory with
      states := Function.update s.memory.states (s.memory.nodeOf ref).state (some state) } }

variable {s : Machine θ ν μ κ} {state : MpStateCtx θ ν μ}

theorem access_spec {core : κ} (runs : RunsOn s core ref) (stated : s.stateOf ref = some state)
    (step : MpStateCtx θ ν μ → MpStateCtx θ ν μ) :
    s.access core step = some (s.replaced ref (step state)) := by
  have here : s.memory.states (s.memory.nodeOf ref).state = some state := stated
  simp [Machine.access, Machine.replaced, runs.mirror, runs.pointer, here]

theorem accesses_spec {core : κ} (steps : List (MpStateCtx θ ν μ → MpStateCtx θ ν μ))
    (runs : RunsOn s core ref) (stated : s.stateOf ref = some state) :
    steps.foldlM (fun s step => s.access core step) s =
      some (s.replaced ref (steps.foldl (fun state step => step state) state)) := by
  induction steps generalizing s state with
  | nil =>
    have same : Function.update s.memory.states (s.memory.nodeOf ref).state (some state) =
        s.memory.states := by
      rw [← show s.memory.states (s.memory.nodeOf ref).state = some state from stated,
        update_eq_self]
    simp [Machine.replaced, same]
  | cons step rest ih =>
    have next := ih (s := s.replaced ref (step state))
      ⟨runs.mirror, runs.pointer⟩ (update_self _ _ _)
    rw [foldlM_cons, access_spec runs stated, bind_eq_bind, bind_some, next]
    refine congrArg some ?_
    simp [Machine.replaced, MpContexts.nodeOf]

section Slices

variable [DecidableEq κ] {s : Machine θ ν μ κ} {refs : List Ref} {ledger : Ref → List Ref}

/-- The main task of a context is switched in: the macros now reach its state. -/
theorem switchedIn_spec (linked : WellLinked s.memory refs ledger) (core : κ)
    (started : Started s refs ref) :
    ∃ memory, s.memory.mpTaskSwitchedIn core (s.memory.nodeOf ref).id = some memory ∧
      memory.states = s.memory.states ∧ SameContexts s { s with memory := memory } ∧
      RunsOn { s with memory := memory } core ref := by
  rcases mpTaskSwitchedIn_spec linked core (s.memory.nodeOf ref).id with ⟨_, nobody⟩ |
    ⟨found, member, _, isId, switched⟩
  · exact absurd rfl (nobody ref started.listed)
  · obtain rfl := started.named found member isId
    refine ⟨_, switched, rfl, ⟨rfl, rfl, rfl, rfl⟩, ⟨?_, ?_⟩⟩
    · exact congrArg MpContextNode.state (update_self _ _ _)
    · rw [show ((s.memory.running core (s.memory.nodeOf found).id).switched core found).currentTIDs
        core = (s.memory.nodeOf found).id from update_self _ _ _]
      exact started.pointer

/-- The schedule that led here changed interpreter states at most. -/
structure Reached (start s : Machine θ ν μ κ) (refs : List Ref) : Prop where
  same : SameContexts start s
  stated : ∀ ref ∈ refs, (s.stateOf ref).isSome = true

omit [DecidableEq κ] in
theorem Reached.linked {start : Machine θ ν μ κ} (reached : Reached start s refs)
    (linked : WellLinked start.memory refs ledger) : WellLinked s.memory refs ledger := by
  refine linked.reframe_stated reached.same.head (fun ref member => ?_) (fun ref member => ?_)
    fun _ _ _ _ => by rw [reached.same.dynmems]
  · refine ⟨_, ?_, rfl, rfl, rfl⟩
    rw [reached.same.contexts]
    exact linked.loaded member
  · rw [← reached.same.nodeOf_eq ref]
    exact reached.stated ref member

omit [DecidableEq κ] in
/-- Replacing the state of a context leaves the other contexts theirs. -/
theorem replaced_stateOf (linked : WellLinked s.memory refs ledger) {ref other : Ref}
    (member : ref ∈ refs) (otherMember : other ∈ refs) (state : MpStateCtx θ ν μ) :
    (s.replaced ref state).stateOf other = if other = ref then some state else s.stateOf other := by
  have node : (s.replaced ref state).memory.nodeOf other = s.memory.nodeOf other := rfl
  by_cases same : other = ref
  · rw [Machine.stateOf, node, same, if_pos rfl]
    exact update_self _ _ _
  · rw [Machine.stateOf, node, if_neg same]
    exact update_of_ne (linked.statesApart other otherMember ref member same) _ _

/-- A slice of a context that has started: it runs, and only the state of that context
changes. -/
theorem slice_spec (linked : WellLinked s.memory refs ledger) (core : κ) {taken : Slice θ ν μ}
    (started : Started s refs taken.context) :
    ∃ after, s.slice core taken = some after ∧ Reached s after refs ∧
      RunsOn after core taken.context ∧
      ∀ ref ∈ refs, after.stateOf ref =
        if ref = taken.context then
          (s.stateOf ref).map fun state => taken.steps.foldl (fun state step => step state) state
        else s.stateOf ref := by
  obtain ⟨memory, switched, states, same, runs⟩ := switchedIn_spec linked core started
  obtain ⟨state, stated⟩ := isSome_iff_exists.mp (linked.stated _ started.listed)
  let now : Machine θ ν μ κ := { s with memory := memory }
  have unchanged : ∀ ref, now.stateOf ref = s.stateOf ref := by
    intro ref
    rw [Machine.stateOf, same.nodeOf_eq]
    exact congrFun states _
  have before : now.stateOf taken.context = some state := (unchanged _).trans stated
  have nowLinked : WellLinked memory refs ledger :=
    Reached.linked (s := now) ⟨same, fun ref member => by
      rw [unchanged]
      exact linked.stated ref member⟩ linked
  have final : ∀ ref ∈ refs, (now.replaced taken.context
      (taken.steps.foldl (fun state step => step state) state)).stateOf ref =
        if ref = taken.context then
          (s.stateOf ref).map fun state => taken.steps.foldl (fun state step => step state) state
        else s.stateOf ref := by
    intro ref member
    rw [replaced_stateOf nowLinked started.listed member, unchanged]
    split
    · next here => rw [here, show s.stateOf taken.context = some state from stated, map_some]
    · rfl
  refine ⟨now.replaced taken.context (taken.steps.foldl (fun state step => step state) state), ?_,
    ⟨⟨same.1, same.2, same.3, same.4⟩, fun ref member => ?_⟩, ⟨runs.mirror, runs.pointer⟩, final⟩
  · rw [Machine.slice, switched]
    exact accesses_spec taken.steps runs before
  · rw [final ref member]
    have was := linked.stated ref member
    split
    · rw [isSome_map]
      exact was
    · exact was

/-- What the slices of one context do to its state. -/
def ownSteps (ref : Ref) (taken : Slice θ ν μ) : List (MpStateCtx θ ν μ → MpStateCtx θ ν μ) :=
  if taken.context = ref then taken.steps else []

omit [DecidableEq κ] in
theorem Reached.trans {start middle after : Machine θ ν μ κ} (first : Reached start middle refs)
    (second : Reached middle after refs) : Reached start after refs :=
  ⟨⟨second.same.1.trans first.same.1, second.same.2.trans first.same.2,
    second.same.3.trans first.same.3, second.same.4.trans first.same.4⟩, second.stated⟩

theorem schedule_spec (linked : WellLinked s.memory refs ledger) (core : κ)
    (slices : List (Slice θ ν μ)) (started : ∀ taken ∈ slices, Started s refs taken.context) :
    ∃ after, s.schedule core slices = some after ∧ Reached s after refs ∧
      ∀ ref ∈ refs, after.stateOf ref = (s.stateOf ref).map fun state =>
        (slices.flatMap (ownSteps ref)).foldl (fun state step => step state) state := by
  induction slices generalizing s with
  | nil =>
    refine ⟨s, rfl, ⟨⟨rfl, rfl, rfl, rfl⟩, linked.stated⟩, fun ref _ => ?_⟩
    simp
  | cons taken rest ih =>
    obtain ⟨middle, ran, reached, _, moved⟩ :=
      slice_spec linked core (started taken mem_cons_self)
    obtain ⟨after, ranRest, reachedRest, movedRest⟩ := ih
      (reached.linked linked) fun other member =>
        reached.same.started (started other (mem_cons_of_mem _ member))
    refine ⟨after, ?_, reached.trans reachedRest, fun ref member => ?_⟩
    · rw [Machine.schedule, foldlM_cons, ran]
      exact ranRest
    · rw [movedRest ref member, moved ref member]
      by_cases own : taken.context = ref
      · rw [if_pos own.symm, Option.map_map]
        simp only [flatMap_cons, ownSteps, if_pos own, foldl_append]
        rfl
      · rw [if_neg fun same => own same.symm]
        simp only [flatMap_cons, ownSteps, if_neg own, nil_append]

omit [DecidableEq κ] in
/-- The slices of other contexts add nothing. -/
theorem ownSteps_filter (ref : Ref) (slices : List (Slice θ ν μ)) :
    (slices.filter fun taken => taken.context = ref).flatMap (ownSteps ref) =
      slices.flatMap (ownSteps ref) := by
  induction slices with
  | nil => rfl
  | cons taken rest ih =>
    by_cases own : taken.context = ref
    · rw [filter_cons_of_pos (by simpa using own), flatMap_cons, flatMap_cons,
        ih]
    · rw [filter_cons_of_neg (by simpa using own), flatMap_cons, ih,
        ownSteps, if_neg own, nil_append]

/-- Contexts whose main tasks share a core in any order are isolated: the schedule runs to its
end, each step in it changes the state of the context whose task runs and nothing else,
and every context ends in the state that its own slices alone lead to. -/
theorem contexts_isolated (linked : WellLinked s.memory refs ledger) (core : κ)
    (slices : List (Slice θ ν μ)) (started : ∀ taken ∈ slices, Started s refs taken.context) :
    (∀ early ref before step rest late, slices = early ++ ⟨ref, before ++ step :: rest⟩ :: late →
      ∃ now state, s.schedule core (early ++ [⟨ref, before⟩]) = some now ∧
        now.stateOf ref = some state ∧ now.access core step = some (now.replaced ref (step state)) ∧
        ∀ other ∈ refs, other ≠ ref →
          (now.replaced ref (step state)).stateOf other = now.stateOf other) ∧
    ∃ after, s.schedule core slices = some after ∧
      ∀ ref ∈ refs, ∃ alone,
        s.schedule core (slices.filter fun taken => taken.context = ref) = some alone ∧
        after.stateOf ref = alone.stateOf ref := by
  constructor
  · rintro early ref before step rest late rfl
    have startedRef : Started s refs ref := started ⟨ref, before ++ step :: rest⟩ (by simp)
    obtain ⟨middle, ran, reached, _⟩ := schedule_spec linked core early fun taken member =>
      started taken (mem_append_left _ member)
    have middleLinked := reached.linked linked
    obtain ⟨now, ranSlice, reachedNow, runs, _⟩ :=
      slice_spec middleLinked core (reached.same.started startedRef :
        Started middle refs (⟨ref, before⟩ : Slice θ ν μ).context)
    obtain ⟨state, stated⟩ := isSome_iff_exists.mp (reachedNow.stated ref startedRef.listed)
    refine ⟨now, state, ?_, stated, access_spec runs stated step, fun other member different => ?_⟩
    · rw [Machine.schedule, foldlM_append,
        show early.foldlM (fun s taken => s.slice core taken) s = some middle from ran]
      simpa using ranSlice
    · rw [replaced_stateOf (reachedNow.linked middleLinked) startedRef.listed member,
        if_neg different]
  · obtain ⟨after, ran, _, moved⟩ := schedule_spec linked core slices started
    refine ⟨after, ran, fun ref member => ?_⟩
    obtain ⟨alone, ranAlone, _, movedAlone⟩ := schedule_spec linked core
      (slices.filter fun taken => taken.context = ref) fun taken own =>
        started taken (mem_of_mem_filter own)
    refine ⟨alone, ranAlone, ?_⟩
    rw [moved ref member, movedAlone ref member, ownSteps_filter]

end Slices

/-- The default context at 4 and a second one at 16 have started on one core. -/
def twoStarted : Option (Machine Nat Nat Nat Bool) := do
  let s : Machine Nat Nat Nat Bool := ⟨.initial 4 8 0, fun _ => 0⟩
  let memory ← s.memory.mpTaskSwitchedIn false 100
  let memory ← memory.multipythonTaskEntry false 4
  let s := Machine.mpThreadSetState { s with memory := memory } false
  let (memory, _) ← s.memory.mpTaskRegister 0 0 16 20
  let memory ← memory.mpTaskSwitchedIn false 200
  let memory ← memory.multipythonTaskEntry false 16
  some (Machine.mpThreadSetState { s with memory := memory } false)

/-- A step that changes every part of the state. -/
def counted (state : MpStateCtx Nat Nat Nat) : MpStateCtx Nat Nat Nat :=
  ⟨state.thread + 1, state.vm + 1, state.mem + 1⟩

/-- The two contexts count in turns. -/
def inTurns : List (Slice Nat Nat Nat) :=
  [⟨4, [counted]⟩, ⟨16, [counted, counted]⟩, ⟨4, [counted, counted]⟩]

/-- Each of the two contexts has its own count in the end. -/
theorem contexts_isolated_two :
    ∃ s after : Machine Nat Nat Nat Bool, twoStarted = some s ∧
      s.schedule false inTurns = some after ∧
      (∀ ref ∈ [4, 16], ∃ alone,
        s.schedule false (inTurns.filter fun taken => taken.context = ref) = some alone ∧
          after.stateOf ref = alone.stateOf ref) ∧
      after.stateOf 4 = some ⟨3, 3, 3⟩ ∧ after.stateOf 16 = some ⟨2, 2, 2⟩ := by
  let s : Machine Nat Nat Nat Bool := twoStarted.getD ⟨.initial 4 8 0, fun _ => 0⟩
  have first : s.memory.contexts 4 = some ⟨100, 0, 8, ⟨0, 0, 0, 0⟩, 0, 0, 16⟩ := by decide
  have second : s.memory.contexts 16 = some ⟨200, 0, 20, ⟨0, 0, 0, 0⟩, 0, 0, 0⟩ := by decide
  have linked : WellLinked s.memory [4, 16] fun _ => [] := by
    refine ⟨.cons (by decide) first (.cons (by decide) second .nil), by simp, by decide, by decide,
      by decide, by decide, ?_, by simp, by simp, by simp⟩
    simp only [mem_cons, not_mem_nil, or_false]
    rintro ref (rfl | rfl)
    · exact .nil
    · exact .nil
  have started : ∀ ref ∈ [4, 16], Started s [4, 16] ref := by
    simp only [mem_cons, not_mem_nil, or_false]
    rintro ref (rfl | rfl)
    · exact ⟨by decide, by decide, rfl⟩
    · exact ⟨by decide, by decide, rfl⟩
  have turns : ∀ taken ∈ inTurns, taken.context ∈ [4, 16] := by
    simp [inTurns]
  obtain ⟨_, after, ran, alone⟩ := contexts_isolated linked false inTurns fun taken member =>
    started taken.context (turns taken member)
  have counts : ∀ ref ∈ [4, 16], (s.schedule false inTurns).map (fun after => after.stateOf ref) =
      some (some (if ref = 4 then ⟨3, 3, 3⟩ else ⟨2, 2, 2⟩)) := by decide
  rw [ran] at counts
  exact ⟨s, after, rfl, ran, alone, some.inj (counts 4 (by decide)),
    some.inj (counts 16 (by decide))⟩

end MultiPython.Esp32
