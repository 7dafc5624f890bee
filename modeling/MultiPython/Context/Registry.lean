import MultiPython.Context.Tasks
import MultiPython.Logic.Run

/-!
# The registry of contexts

The functions that create, name and remove contexts, called in any order. A
`Registry` is the memory together with what the callers know: the contexts that
were registered and not removed, in the order of registration, and the task that each of
them was made for. The list that the links spell out is always the registered one,
and `mp_context_by_tid` finds a context by its task as soon as the task has
started.
-/

namespace MultiPython.Context

open Logic List Option

variable {σ κ : Type}

/-- The memory, the contexts registered and not removed, and the handle of the task of
each of them. -/
structure Registry (σ κ : Type) where
  memory : MpContexts σ κ
  registered : List Ref
  task : Ref → Nat

/-- The calls, with the results of `malloc` and the task that a new context is for. -/
inductive RegistryCall (κ : Type) where
  | mpTaskRegister (tID : Nat) (addtlargs mallocNode mallocState : Ref) (task : Nat)
  | mpContextAppendNew (mallocNode mallocState : Ref) (task : Nat)
  | taskEntry (core : κ) (context : Ref)
  | mpTaskRemove (tID : Nat)
  | mpContextRemove (context : Ref)
  | mpTaskSwitchedIn (core : κ) (tID : Nat)

namespace Registry

/-- Only the default context is registered. -/
def initial (defaultContext defaultState : Ref) (state : σ) (task : Nat) : Registry σ κ :=
  ⟨.initial defaultContext defaultState state, [defaultContext], fun _ => task⟩

variable (s : Registry σ κ)

/-- The id of a context. -/
def id (ref : Ref) : Nat := (s.memory.nodeOf ref).id

/-- A call that returned a new context registered it; `NULL` registers nothing. -/
def register (memory : MpContexts σ κ) (ref : Ref) (task : Nat) : Registry σ κ :=
  if ref = 0 then
    { s with memory := memory }
  else
    ⟨memory, s.registered ++ [ref], Function.update s.task ref task⟩

/-- A context is no longer registered. The default context always is. -/
def remove (memory : MpContexts σ κ) (ref : Ref) : Registry σ κ :=
  { s with
    memory := memory
    registered := if ref = s.memory.contextHead then s.registered else s.registered.erase ref }

/-- The first registered context with an id, or `NULL`. -/
def byTid (tID : Nat) : Ref := (s.registered.find? fun ref => s.id ref == tID).getD 0

/-- One call. -/
def call [Zero σ] [DecidableEq κ] : RegistryCall κ → Option (Registry σ κ)
  | .mpTaskRegister tID addtlargs mallocNode mallocState task => do
      let (memory, ref) ← s.memory.mpTaskRegister tID addtlargs mallocNode mallocState
      some (s.register memory ref task)
  | .mpContextAppendNew mallocNode mallocState task => do
      let (memory, ref) ← s.memory.mpContextAppendNew mallocNode mallocState
      some (s.register memory ref task)
  | .taskEntry core context => do
      let memory ← s.memory.multipythonTaskEntry core context
      some { s with memory := memory }
  | .mpTaskRemove tID => do
      let memory ← s.memory.mpTaskRemove tID
      some (s.remove memory (s.byTid tID))
  | .mpContextRemove context => do
      let memory ← s.memory.mpContextRemove context
      some (s.remove memory context)
  | .mpTaskSwitchedIn core tID => do
      let memory ← s.memory.mpTaskSwitchedIn core tID
      some { s with memory := memory }

/-- What the system and the callers promise: `malloc` returns unused memory, the handles
of live tasks are different and not 0, a context is registered under the handle of
its task or under 0, and a task enters its own context. -/
def Promised : RegistryCall κ → Prop
  | .mpTaskRegister tID _ mallocNode mallocState task =>
    Malloced s.memory mallocNode ∧
      Malloced (s.memory.mpNewContextNode mallocNode).1 mallocState ∧
      task ≠ 0 ∧ (tID = 0 ∨ tID = task) ∧
      ∀ ref ∈ s.registered, s.task ref ≠ task ∨ s.id ref = tID
  | .mpContextAppendNew mallocNode mallocState task =>
    Malloced s.memory mallocNode ∧
      Malloced (s.memory.mpNewContextNode mallocNode).1 mallocState ∧
      task ≠ 0 ∧ ∀ ref ∈ s.registered, s.task ref ≠ task
  | .taskEntry core context => context ∈ s.registered ∧ s.memory.currentTIDs core = s.task context
  | .mpContextRemove context => context ≠ 0
  | .mpTaskRemove _ | .mpTaskSwitchedIn _ _ => True

/-- No two registered contexts have the same id. -/
def UniqueIds : Prop :=
  ∀ ref ∈ s.registered, ∀ other ∈ s.registered, ref ≠ other → s.id ref ≠ s.id other

/-- `mp_context_append_new` is not called while a context is waiting for its id. -/
def NoneWaiting : RegistryCall κ → Prop
  | .mpContextAppendNew _ _ _ => ∀ ref ∈ s.registered, s.id ref ≠ 0
  | _ => True

/-- A promised call that returns. -/
def Step [Zero σ] [DecidableEq κ] (s : Registry σ κ) (made : RegistryCall κ) (after : Registry σ κ) :
    Prop :=
  s.Promised made ∧ s.call made = some after

end Registry

/-! ## The invariant -/

/-- The links spell out the registered contexts, and a context has the id 0 or that of
its own task. -/
structure RegistryInvariant (defaultContext : Ref) (s : Registry σ κ) : Prop where
  linked : ∃ ledger, WellLinked s.memory s.registered ledger
  head : s.memory.contextHead = defaultContext
  tasks : ∀ ref ∈ s.registered, s.task ref ≠ 0
  tasksApart : ∀ ref ∈ s.registered, ∀ other ∈ s.registered, ref ≠ other → s.task ref ≠ s.task other
  ids : ∀ ref ∈ s.registered, s.id ref = 0 ∨ s.id ref = s.task ref

namespace RegistryInvariant

variable {defaultContext : Ref} {s : Registry σ κ} {ref : Ref}

section

variable (holds : RegistryInvariant defaultContext s)

include holds

theorem byTid_eq (tID : Nat) :
    s.memory.mpContextByTid tID = some (s.byTid tID) := by
  obtain ⟨ledger, linked⟩ := holds.linked
  exact linked.byTid_eq tID

theorem id_shared {ref other : Ref} (member : ref ∈ s.registered)
    (otherMember : other ∈ s.registered) (different : ref ≠ other) (same : s.id ref = s.id other) :
    s.id ref = 0 := by
  rcases holds.ids ref member with zero | own
  · exact zero
  rcases holds.ids other otherMember with zero | otherOwn
  · exact same.trans zero
  · have apart := holds.tasksApart ref member other otherMember different
    exact absurd (own.symm.trans (same.trans otherOwn)) apart

variable {memory : MpContexts σ κ}

/-- A new context for a task that has none. -/
theorem appended {id task : Nat} (spec : Appended s.memory s.registered ref id memory)
    (isTask : task ≠ 0) (own : id = 0 ∨ id = task)
    (unowned : ∀ ref ∈ s.registered, s.task ref ≠ task) :
    RegistryInvariant defaultContext (s.register memory ref task) := by
  have taskNew : Function.update s.task ref task ref = task := Function.update_self _ _ _
  have taskOld : ∀ other ∈ s.registered, Function.update s.task ref task other = s.task other :=
    fun other member => Function.update_of_ne (fun same : other = ref => spec.fresh (same ▸ member)) _ _
  have registered : s.register memory ref task =
      ⟨memory, s.registered ++ [ref], Function.update s.task ref task⟩ := if_neg spec.notNull
  rw [registered]
  refine ⟨spec.linked, spec.globals.contextHead.trans holds.head, ?_, ?_, ?_⟩
  · simp only [mem_append, mem_singleton]
    rintro other (member | rfl)
    · rw [taskOld other member]
      exact holds.tasks other member
    · rw [taskNew]
      exact isTask
  · simp only [mem_append, mem_singleton]
    rintro one (member | rfl) other (otherMember | rfl) different
    · rw [taskOld one member, taskOld other otherMember]
      exact holds.tasksApart one member other otherMember different
    · rw [taskOld one member, taskNew]
      exact unowned one member
    · rw [taskOld other otherMember, taskNew]
      exact (unowned other otherMember).symm
    · exact absurd rfl different
  · simp only [mem_append, mem_singleton]
    rintro other (member | rfl)
    · rw [taskOld other member]
      have same : (memory.nodeOf other).id = s.id other := (spec.others other member).id_eq
      simpa [Registry.id, same] using holds.ids other member
    · rw [taskNew]
      simpa [Registry.id, spec.id_eq] using own

theorem removed (spec : Removed s.memory s.registered ref memory)
    (notHead : ref ≠ s.memory.contextHead) :
    RegistryInvariant defaultContext (s.remove memory ref) := by
  have registered : s.remove memory ref =
      { s with memory := memory, registered := s.registered.erase ref } := by
    simp [Registry.remove, notHead]
  rw [registered]
  refine ⟨spec.linked, spec.globals.contextHead.trans holds.head,
    fun other member => holds.tasks other (mem_of_mem_erase member),
    fun one member other otherMember => holds.tasksApart one (mem_of_mem_erase member) other
      (mem_of_mem_erase otherMember), fun other member => ?_⟩
  have same : (memory.nodeOf other).id = s.id other := (spec.others other member).id_eq
  simpa [Registry.id, same] using holds.ids other (mem_of_mem_erase member)

end

variable {memory : MpContexts σ κ}

theorem appended_unique {id task : Nat} (spec : Appended s.memory s.registered ref id memory)
    (unused : ∀ ref ∈ s.registered, s.id ref ≠ id) (unique : s.UniqueIds) :
    (s.register memory ref task).UniqueIds := by
  have registered : s.register memory ref task =
      ⟨memory, s.registered ++ [ref], Function.update s.task ref task⟩ := if_neg spec.notNull
  have same : ∀ other ∈ s.registered, (memory.nodeOf other).id = s.id other :=
    fun other member => (spec.others other member).id_eq
  rw [registered]
  simp only [Registry.UniqueIds, Registry.id, mem_append, mem_singleton]
  rintro one (member | rfl) other (otherMember | rfl) different
  · rw [same one member, same other otherMember]
    exact unique one member other otherMember different
  · rw [same one member, spec.id_eq]
    exact unused one member
  · rw [same other otherMember, spec.id_eq]
    exact (unused other otherMember).symm
  · exact absurd rfl different

theorem removed_unique (spec : Removed s.memory s.registered ref memory)
    (notHead : ref ≠ s.memory.contextHead) (unique : s.UniqueIds) :
    (s.remove memory ref).UniqueIds := by
  have registered : s.remove memory ref =
      { s with memory := memory, registered := s.registered.erase ref } := by
    simp [Registry.remove, notHead]
  rw [registered]
  intro one member other otherMember different
  simp only [Registry.id, (spec.others one member).id_eq, (spec.others other otherMember).id_eq]
  exact unique one (mem_of_mem_erase member) other (mem_of_mem_erase otherMember) different

/-- The task of a context sets its id. -/
theorem entered [DecidableEq κ] (holds : RegistryInvariant defaultContext s) {core : κ}
    (member : ref ∈ s.registered) (runs : s.memory.currentTIDs core = s.task ref) :
    let after := { s with memory := (s.memory.identified core ref).switched core ref }
    RegistryInvariant defaultContext after ∧ (s.UniqueIds → after.UniqueIds) := by
  intro after
  obtain ⟨ledger, linked⟩ := holds.linked
  have idRef : after.id ref = s.task ref := by
    rw [← runs]
    exact congrArg MpContextNode.id ((s.memory.setContext_nodeOf _ _ _).trans (if_pos rfl))
  have idOther : ∀ other, other ≠ ref → after.id other = s.id other := fun other different =>
    congrArg MpContextNode.id ((s.memory.setContext_nodeOf _ _ _).trans (if_neg different))
  -- The handle is the task's own, so no other context has it as its id.
  have handleFree : ∀ other ∈ s.registered, other ≠ ref → s.id other ≠ s.task ref := by
    intro other otherMember different same
    rcases holds.ids other otherMember with zero | own
    · exact holds.tasks ref member (same.symm.trans zero)
    · exact holds.tasksApart other otherMember ref member different (own.symm.trans same)
  refine ⟨⟨⟨ledger, (linked.identified core ref).switched core ref⟩, holds.head, holds.tasks,
    holds.tasksApart, fun other otherMember => ?_⟩, fun unique one oneMember other otherMember
      different => ?_⟩
  · by_cases here : other = ref
    · subst here
      exact Or.inr idRef
    · rw [idOther other here]
      exact holds.ids other otherMember
  · by_cases oneHere : one = ref
    · subst oneHere
      rw [idRef, idOther other different.symm]
      exact (handleFree other otherMember different.symm).symm
    · rw [idOther one oneHere]
      by_cases otherHere : other = ref
      · subst otherHere
        rw [idRef]
        exact handleFree one oneMember oneHere
      · rw [idOther other otherHere]
        exact unique one oneMember other otherMember different

/-- Every promised call returns and keeps the invariant. Ids stay unique unless
`mp_context_append_new` is called while a context is waiting for its id. -/
theorem call_spec [Zero σ] [DecidableEq κ] (holds : RegistryInvariant defaultContext s)
    {made : RegistryCall κ} (promised : s.Promised made) :
    ∃ after, s.call made = some after ∧ RegistryInvariant defaultContext after ∧
      (s.UniqueIds → s.NoneWaiting made → after.UniqueIds) := by
  obtain ⟨ledger, linked⟩ := holds.linked
  have unchanged : ∀ task, s.register s.memory 0 task = s := fun _ => if_pos rfl
  have kept : ∀ ref, ref = s.memory.contextHead ∨ ref ∉ s.registered →
      s.remove s.memory ref = s := by
    rintro ref (isHead | unlisted)
    · simp [Registry.remove, isHead]
    · simp [Registry.remove, erase_of_not_mem unlisted]
  cases made with
  | mpTaskRegister tID addtlargs mallocNode mallocState task =>
    obtain ⟨mallocedNode, mallocedState, isTask, own, unowned⟩ := promised
    rcases mpTaskRegister_spec linked tID addtlargs mallocedNode mallocedState with
      failed | ⟨unused, memory, ran, spec⟩
    · exact ⟨s, by simp [Registry.call, failed, unchanged], holds, fun unique _ => unique⟩
    · exact ⟨_, by simp [Registry.call, ran],
        holds.appended spec isTask own fun ref member => (unowned ref member).resolve_right
          (unused ref member), fun unique _ => appended_unique spec unused unique⟩
  | mpContextAppendNew mallocNode mallocState task =>
    obtain ⟨mallocedNode, mallocedState, isTask, unowned⟩ := promised
    rcases mpContextAppendNew_spec linked mallocedNode mallocedState with
      failed | ⟨memory, ran, spec⟩
    · exact ⟨s, by simp [Registry.call, failed, unchanged], holds, fun unique _ => unique⟩
    · exact ⟨_, by simp [Registry.call, ran], holds.appended spec isTask (Or.inl rfl) unowned,
        fun unique noneWaiting => appended_unique spec noneWaiting unique⟩
  | taskEntry core context =>
    obtain ⟨member, runs⟩ := promised
    obtain ⟨after, unique⟩ := holds.entered member runs
    exact ⟨_, by simp [Registry.call, multipythonTaskEntry_spec linked core member], after,
      fun before _ => unique before⟩
  | mpTaskRemove tID =>
    have found := holds.byTid_eq tID
    rcases mpTaskRemove_spec linked tID with ⟨ran, other⟩ |
      ⟨ref, _, notHead, isRef, _, memory, ran, spec⟩
    · refine ⟨s, ?_, holds, fun unique _ => unique⟩
      rw [found, some.injEq, some.injEq] at other
      rw [Registry.call, ran]
      refine congrArg some (kept _ (other.imp_right fun isNull => ?_))
      rw [isNull]
      exact fun member => linked.chain.ne_zero 0 member rfl
    · obtain rfl : s.byTid tID = ref := some.inj (found.symm.trans isRef)
      exact ⟨_, by simp [Registry.call, ran], holds.removed spec notHead,
        fun unique _ => removed_unique spec notHead unique⟩
  | mpContextRemove context =>
    rcases mpContextRemove_cases linked promised with ⟨ran, other⟩ | ⟨_, notHead, memory, ran, spec⟩
    · exact ⟨s, by simp [Registry.call, ran, kept context other], holds, fun unique _ => unique⟩
    · exact ⟨_, by simp [Registry.call, ran], holds.removed spec notHead,
        fun unique _ => removed_unique spec notHead unique⟩
  | mpTaskSwitchedIn core tID =>
    rcases mpTaskSwitchedIn_spec linked core tID with ⟨ran, _⟩ | ⟨ref, _, _, _, ran⟩
    · exact ⟨{ s with memory := s.memory.running core tID }, by simp [Registry.call, ran],
        ⟨⟨ledger, linked.running core tID⟩, holds.head, holds.tasks, holds.tasksApart, holds.ids⟩,
        fun unique _ => unique⟩
    · exact ⟨{ s with memory := (s.memory.running core tID).switched core ref },
        by simp [Registry.call, ran], ⟨⟨ledger, (linked.running core tID).switched core ref⟩,
        holds.head, holds.tasks, holds.tasksApart, holds.ids⟩, fun unique _ => unique⟩

end RegistryInvariant

/-! ## Every run -/

/-- The links from `mp_default_context` visit the registered contexts once each, in the
order of registration. `mp_context_by_tid` finds the one context with a task's
id, `NULL` if there is none, and the first of those that have no id yet. -/
structure ContextListSound [Zero σ] [DecidableEq κ] (defaultContext : Ref) (s : Registry σ κ) :
    Prop where
  chain : Chain MpContextNode.next s.memory.contexts defaultContext s.registered
  head : s.memory.contextHead = defaultContext ∧ s.registered.head? = some defaultContext
  once : s.registered.Nodup
  idsApart : ∀ ref ∈ s.registered, ∀ other ∈ s.registered, ref ≠ other → s.id ref = s.id other →
    s.id ref = 0
  byTid : ∀ tID, s.memory.mpContextByTid tID = some (s.byTid tID)
  byTid_found : ∀ ref ∈ s.registered, s.id ref ≠ 0 → s.memory.mpContextByTid (s.id ref) = some ref
  byTid_null : ∀ tID, (∀ ref ∈ s.registered, s.id ref ≠ tID) →
    s.memory.mpContextByTid tID = some 0
  returns : ∀ made, s.Promised made → (s.call made).isSome = true

namespace RegistryInvariant

variable {defaultContext : Ref} {s : Registry σ κ}

theorem byTid_unique (holds : RegistryInvariant defaultContext s) {ref : Ref}
    (member : ref ∈ s.registered)
    (unique : ∀ other ∈ s.registered, ref ≠ other → s.id ref ≠ s.id other) :
    s.memory.mpContextByTid (s.id ref) = some ref := by
  obtain ⟨ledger, linked⟩ := holds.linked
  rcases linked.byTid_cases (s.id ref) with ⟨_, noneHas⟩ | ⟨other, otherMember, found, isId⟩
  · exact absurd rfl (noneHas ref member)
  · by_cases same : ref = other
    · rw [found, same]
    · exact absurd isId.symm (unique other otherMember same)

theorem sound [Zero σ] [DecidableEq κ] (holds : RegistryInvariant defaultContext s) :
    ContextListSound defaultContext s := by
  obtain ⟨ledger, linked⟩ := holds.linked
  have chain := linked.chain
  rw [holds.head] at chain
  refine ⟨chain, ⟨holds.head, ?_⟩, linked.distinct, fun ref member other otherMember different same =>
    holds.id_shared member otherMember different same, holds.byTid_eq, fun ref member named =>
    holds.byTid_unique member fun other otherMember different same =>
      named (holds.id_shared member otherMember different same), fun tID noneHas => ?_,
    fun made promised => ?_⟩
  · have start := chain.start_eq
    obtain ⟨first, rest, registered⟩ := exists_cons_of_ne_nil linked.nonempty
    rw [registered] at start ⊢
    rw [start]
    rfl
  · rcases linked.byTid_cases tID with ⟨found, _⟩ | ⟨ref, member, _, isId⟩
    · exact found
    · exact absurd isId (noneHas ref member)
  · obtain ⟨after, ran, _⟩ := holds.call_spec promised
    rw [ran]
    rfl

end RegistryInvariant

theorem Registry.initial_invariant {defaultContext : Ref} (defaultState : Ref) (state : σ) {task : Nat}
    (notNull : defaultContext ≠ 0) (bounded : defaultContext < addressSpace) (isTask : task ≠ 0) :
    RegistryInvariant defaultContext
      (Registry.initial (κ := κ) defaultContext defaultState state task) := by
  refine ⟨⟨_, MpContexts.initial_linked defaultState state notNull bounded⟩, rfl, fun _ _ => isTask,
    ?_, ?_⟩
  · intro ref member other otherMember different
    exact absurd ((mem_singleton.mp member).trans (mem_singleton.mp otherMember).symm)
      different
  · intro ref member
    rw [mem_singleton.mp member]
    exact Or.inl (by simp [Registry.initial, Registry.id, MpContexts.initial, MpContexts.nodeOf,
      MpContextNode.zeroed])

section Runs

variable [Zero σ] [DecidableEq κ]

/-- In every run the context list is sound. The ids of all contexts are different as long as
`mp_context_append_new` is not called while a context is waiting for its id, and
`mp_context_by_tid` then finds every context by its id. -/
theorem contextList_sound {defaultContext defaultState : Ref} {state : σ} {task : Nat}
    {run : List (RegistryCall κ × Registry σ κ)} (notNull : defaultContext ≠ 0)
    (bounded : defaultContext < addressSpace) (isTask : task ≠ 0)
    (runs : Run Registry.Step (Registry.initial defaultContext defaultState state task) run) :
    (∀ s ∈ visited (Registry.initial defaultContext defaultState state task) run,
      ContextListSound defaultContext s) ∧
    ((∀ taken ∈ fired (Registry.initial defaultContext defaultState state task) run,
        taken.1.NoneWaiting taken.2) →
      ∀ s ∈ visited (Registry.initial defaultContext defaultState state task) run,
        s.UniqueIds ∧ ∀ ref ∈ s.registered, s.memory.mpContextByTid (s.id ref) = some ref) := by
  have start := Registry.initial_invariant (κ := κ) defaultState state notNull bounded isTask
  have startUnique : (Registry.initial (κ := κ) defaultContext defaultState state task).UniqueIds := by
    intro ref member other otherMember different
    exact absurd ((mem_singleton.mp member).trans (mem_singleton.mp otherMember).symm)
      different
  constructor
  · intro s member
    refine (runs.invariant _ start (fun holds stepped => ?_) s member).sound
    obtain ⟨after, ran, holdsAfter, _⟩ := holds.call_spec stepped.1
    exact some.inj (ran.symm.trans stepped.2) ▸ holdsAfter
  · intro noneWaiting s member
    obtain ⟨holds, unique⟩ := runs.invariant_of_fired
      (fun s => RegistryInvariant defaultContext s ∧ s.UniqueIds) Registry.NoneWaiting
      ⟨start, startUnique⟩ (fun holds waits stepped => by
        obtain ⟨after, ran, holdsAfter, uniqueAfter⟩ := holds.1.call_spec stepped.1
        obtain rfl := some.inj (ran.symm.trans stepped.2)
        exact ⟨holdsAfter, uniqueAfter holds.2 waits⟩) noneWaiting s member
    exact ⟨unique, fun ref listed => holds.byTid_unique listed (unique ref listed)⟩

end Runs

/-- The main task starts, and then a second context is appended. -/
theorem contextList_sound_started :
    ∃ run : List (RegistryCall Bool × Registry Nat Bool),
      run.map Prod.fst = [.mpTaskSwitchedIn false 100, .taskEntry false 4,
        .mpContextAppendNew 16 20 200] ∧
      (run.map fun taken => taken.2.registered) = [[4], [4], [4, 16]] ∧
      ∀ s ∈ visited (Registry.initial 4 8 0 100) run, ContextListSound 4 s ∧ s.UniqueIds := by
  let start : Registry Nat Bool := Registry.initial 4 8 0 100
  let scheduled := (start.call (.mpTaskSwitchedIn false 100)).getD start
  let entered := (scheduled.call (.taskEntry false 4)).getD start
  let both := (entered.call (.mpContextAppendNew 16 20 200)).getD start
  have first : start.Step (.mpTaskSwitchedIn false 100) scheduled := ⟨trivial, rfl⟩
  have second : scheduled.Step (.taskEntry false 4) entered := ⟨⟨by decide, by decide⟩, rfl⟩
  have third : entered.Step (.mpContextAppendNew 16 20 200) both :=
    ⟨⟨Or.inr (by decide), Or.inr (by decide), by decide, by decide⟩, rfl⟩
  have sound := contextList_sound (by decide) (by decide) (by decide)
    (.cons first (.cons second (.cons third .nil)))
  refine ⟨_, rfl, rfl, fun s member => ⟨sound.1 s member, (sound.2 ?_ s member).1⟩⟩
  simp only [fired, mem_cons, not_mem_nil, or_false]
  rintro taken (rfl | rfl | rfl)
  · trivial
  · trivial
  · exact (by decide : ∀ ref ∈ entered.registered, entered.id ref ≠ 0)

/-- Before any task has run, a context from `mp_context_append_new` has the id 0 of the
default context. -/
theorem mpContextAppendNew_repeats_id :
    ∃ s : Registry Nat Bool,
      Run Registry.Step (Registry.initial 4 8 0 100) [(.mpContextAppendNew 16 20 200, s)] ∧
        s.registered = [4, 16] ∧ s.id 4 = s.id 16 ∧ ¬s.UniqueIds := by
  let start : Registry Nat Bool := Registry.initial 4 8 0 100
  have stepped : start.Step (.mpContextAppendNew 16 20 200)
      ((start.call (.mpContextAppendNew 16 20 200)).getD start) :=
    ⟨⟨Or.inr (by decide), Or.inr (by decide), by decide, by decide⟩, rfl⟩
  refine ⟨_, .cons stepped .nil, rfl, rfl, fun unique => ?_⟩
  exact unique 4 (by decide) 16 (by decide) (by decide) rfl

end MultiPython.Context
