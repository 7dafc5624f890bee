import MultiPython.Esp32.Runtime

/-!
# Starting a context that cannot be started

`multipython_start` registers the context before it looks at the source, and takes it out of the
list again in one of the places where the call fails. `appended` is the memory in between, and
taking the context out of it gives back exactly the memory before the call. Where the call
leaves the context behind, its id is 0, and every later call fails.
-/

namespace MultiPython.Esp32

open Context Logic List Option Function

variable {σ κ : Type} [Zero σ]

section Registering

variable {s : MpContexts σ κ} {refs : List Ref} {ledger : Ref → List Ref}

/-- A new context behind the last one, as `mp_task_register` leaves it for the id 0. -/
def appended (s : MpContexts σ κ) (last node state : Ref) : MpContexts σ κ :=
  { s with
    contexts := Function.update
      (Function.update s.contexts last (some { s.nodeOf last with next := node }))
      node (some { MpContextNode.zeroed with state := state })
    states := Function.update s.states state (some 0) }

section

variable (linked : WellLinked s refs ledger) {node state : Ref} (mallocedNode : Malloced s node)
  (mallocedState : Malloced (s.mpNewContextNode node).1 state)

include linked node state mallocedNode mallocedState

/-- `mp_task_register` for the id 0, as it is called by `multipython_start`. -/
theorem mpTaskRegister_zero_eq :
    s.mpTaskRegister 0 0 node state =
      if (∀ ref ∈ refs, (s.nodeOf ref).id ≠ 0) ∧ node ≠ 0 ∧ state ≠ 0 then
        some (appended s (refs.getLast linked.nonempty) node state, node)
      else
        some (s, 0) := by
  rcases linked.byTid_cases 0 with ⟨found, nobody⟩ | ⟨ref, member, found, isId⟩
  swap
  · have somebody : ¬ ∀ ref ∈ refs, (s.nodeOf ref).id ≠ 0 := fun nobody => nobody ref member isId
    simp [MpContexts.mpTaskRegister, found, linked.chain.ne_zero ref member, somebody]
  by_cases nodeNull : node = 0
  · simp [MpContexts.mpTaskRegister, found, MpContexts.mpContextAppendNew,
      MpContexts.mpNewContextNode, nodeNull]
  obtain ⟨bounded, nodeFree, _⟩ := mallocedNode.resolve_left nodeNull
  by_cases stateNull : state = 0
  · have unallocated : Function.update s.contexts node none = s.contexts := by
      rw [← nodeFree, update_eq_self]
    simp [MpContexts.mpTaskRegister, found, MpContexts.mpContextAppendNew,
      MpContexts.mpNewContextNode, MpContexts.mpNewState, MpContexts.setContext,
      MpContexts.freeContext, nodeNull, stateNull, unallocated]
  have fresh := mallocedNode.not_mem linked nodeNull
  have stateFree : s.states state = none := by
    obtain ⟨_, _, free, _⟩ := mallocedState.resolve_left stateNull
    simpa [MpContexts.mpNewContextNode, nodeNull, MpContexts.setContext] using free
  -- The node and its state, not in the list yet.
  let created : MpContexts σ κ :=
    { s with
      contexts := Function.update s.contexts node
        (some { MpContextNode.zeroed with state := state })
      states := Function.update s.states state (some 0) }
  have sameNode : ∀ other ∈ refs, created.contexts other = s.contexts other := by
    intro other member
    exact update_of_ne (fun same : other = node => fresh (same ▸ member)) _ _
  have createdLinked : WellLinked created refs ledger := by
    refine linked.reframe rfl (fun other member => ?_) (fun other member => ?_) fun _ _ _ _ => rfl
    · exact ⟨s.nodeOf other, (sameNode other member).trans (linked.loaded member), rfl, rfl, rfl⟩
    · refine update_of_ne (fun same : (s.nodeOf other).state = state => ?_) _ _
      have stated := linked.stated other member
      simp [same, stateFree] at stated
  have lastMem := getLast_mem linked.nonempty
  have tail := createdLinked.tail_eq
  generalize refs.getLast linked.nonempty = last at lastMem tail ⊢
  have apart : node ≠ last := fun same => fresh (same ▸ lastMem)
  have lastNotNull := linked.chain.ne_zero last lastMem
  have lastLoaded : created.contexts last = some (s.nodeOf last) :=
    (sameNode last lastMem).trans (linked.loaded lastMem)
  have nodeLoaded : Function.update created.contexts last (some { s.nodeOf last with next := node }) node =
      some { MpContextNode.zeroed with state := state } := by
    rw [update_of_ne apart]
    exact update_self _ _ _
  have unfolded : s.mpContextAppendNew node state =
      (created.mpContextAppend node).bind fun s => some (s, node) := by
    simp [MpContexts.mpContextAppendNew, MpContexts.mpNewContextNode, MpContexts.mpNewState,
      MpContexts.setContext, nodeNull, stateNull, created]
  have linkedIn : created.mpContextAppend node =
      some (appended s last node state) := by
    simp only [MpContexts.mpContextAppend, nodeNull, if_false, tail, lastNotNull, lastLoaded,
      MpContexts.setContext, nodeLoaded, bind_eq_bind, bind_some, appended]
    congr 2
    funext other
    by_cases here : other = node
    · simp [here, MpContextNode.zeroed]
    · by_cases isLast : other = last
      · simp [isLast, apart.symm, created]
      · simp [here, isLast, created]
  have registered : (appended s last node state).contexts node =
      some { MpContextNode.zeroed with state := state } := update_self _ _ _
  rw [if_pos ⟨nobody, nodeNull, stateNull⟩]
  simp only [MpContexts.mpTaskRegister, found, unfolded, linkedIn, registered, nodeNull, if_false,
    bind_eq_bind, bind_some, ne_eq, not_true_eq_false]
  simp [MpContexts.setContext, appended, MpContextNode.zeroed]

/-- Taking the new context out of the list again gives back the memory as it was. -/
theorem appended_removed (notNull : node ≠ 0) (stated : state ≠ 0)
    (linkedAfter : ∃ ledger, WellLinked (appended s (refs.getLast linked.nonempty) node state) (refs ++ [node]) ledger) :
    (appended s (refs.getLast linked.nonempty) node state).mpContextRemove node = some s := by
  have fresh := mallocedNode.not_mem linked notNull
  obtain ⟨_, nodeFree, _⟩ := mallocedNode.resolve_left notNull
  have stateFree : s.states state = none := by
    obtain ⟨_, _, free, _⟩ := mallocedState.resolve_left stated
    simpa [MpContexts.mpNewContextNode, notNull, MpContexts.setContext] using free
  obtain ⟨ledgerAfter, linkedAfter⟩ := linkedAfter
  have lastMem := getLast_mem linked.nonempty
  have split := (dropLast_append_getLast linked.nonempty).symm
  generalize refs.getLast linked.nonempty = last at lastMem split linkedAfter ⊢
  have apart : node ≠ last := fun same => fresh (same ▸ lastMem)
  have lastNotNull := linked.chain.ne_zero last lastMem
  rw [split, append_assoc, singleton_append] at linkedAfter
  have atEnd : (s.nodeOf last).next = 0 := by
    have chain := linked.chain
    rw [split] at chain
    have ends := chain.link_last
    rw [linked.loaded lastMem] at ends
    simpa using ends
  have predecessor := linkedAfter.predecessor_eq
  have nodeLoaded : (appended s last node state).contexts node =
      some { MpContextNode.zeroed with state := state } := update_self _ _ _
  have lastLoaded : (appended s last node state).contexts last =
      some { s.nodeOf last with next := node } :=
    (update_of_ne apart.symm _ _).trans (update_self _ _ _)
  simp only [MpContexts.mpContextRemove, predecessor, lastNotNull, if_false, nodeLoaded, lastLoaded,
    bind_eq_bind, bind_some]
  have stillThere : ((appended s last node state).setContext last
      { s.nodeOf last with next := 0 }).contexts node =
        some { MpContextNode.zeroed with state := state } :=
    (update_of_ne apart _ _).trans nodeLoaded
  have restored : ((appended s last node state).setContext last
      { s.nodeOf last with next := 0 }).mpContextDynmemFreeAll node =
        some ((appended s last node state).setContext last { s.nodeOf last with next := 0 }, -1) := by
    simp [MpContexts.mpContextDynmemFreeAll, notNull, stillThere, MpContextNode.zeroed]
  have sameContexts : ∀ other, Function.update ((appended s last node state).setContext last
      { s.nodeOf last with next := 0 }).contexts node none other = s.contexts other := by
    intro other
    by_cases here : other = node
    · rw [here, update_self, nodeFree]
    · by_cases isLast : other = last
      · have sameNode : { s.nodeOf last with next := 0 } = s.nodeOf last := by rw [← atEnd]
        simp [isLast, apart.symm, MpContexts.setContext, sameNode, linked.loaded lastMem]
      · simp [here, isLast, MpContexts.setContext, appended]
  have sameStates : Function.update ((appended s last node state).setContext last
      { s.nodeOf last with next := 0 }).states state none = s.states := by
    simp only [MpContexts.setContext, appended, update_idem]
    rw [← stateFree, update_eq_self]
  simp only [MpContextNode.zeroed] at restored stillThere ⊢
  simp only [restored, stillThere, bind_some, MpContexts.freeContext, sameStates,
    some.injEq]
  rw [show Function.update ((appended s last node state).setContext last
      { s.nodeOf last with next := 0 }).contexts node none = s.contexts from funext sameContexts]
  simp [MpContexts.setContext, appended]

end

end Registering

/-! ## Failing -/

/-- The call does not start a context: it raises, or its task cannot be created. -/
def StartFails (result : Except Raised Ref) (taskCreated : Bool) : Prop :=
  result.isOk = false ∨ taskCreated = false

/-- The context is registered, before the arguments are looked at. -/
def StartRegisters (s : MpContexts σ κ) (refs : List Ref) (mallocs : StartMallocs) : Prop :=
  (∀ ref ∈ refs, (s.nodeOf ref).id ≠ 0) ∧ mallocs.node ≠ 0 ∧ mallocs.state ≠ 0

/-- Where the context is registered, the source is a string, and if it can be copied the task
can be created. -/
def StartUndone (s : MpContexts σ κ) (refs : List Ref) (args : StartArgs) (mallocs : StartMallocs)
    (taskCreated : Bool) : Prop :=
  StartRegisters s refs mallocs → args.source.isSome = true ∧
    (mallocs.entry = 0 ∨ mallocs.source = 0 ∨ taskCreated = true)

section Failing

variable {s : MpContexts σ κ} {refs : List Ref} {ledger : Ref → List Ref}

/-- A call that does not start a context leaves the memory exactly as it was if and only if the
context was not registered, or was taken out of the list again. -/
theorem multipythonStart_atomic_iff (linked : WellLinked s refs ledger) (args : StartArgs)
    {mallocs : StartMallocs} (taskCreated : Bool) (mallocedNode : Malloced s mallocs.node)
    (mallocedState : Malloced (s.mpNewContextNode mallocs.node).1 mallocs.state)
    (mallocedEntry : ∀ result ∈ s.mpTaskRegister 0 0 mallocs.node mallocs.state,
      Malloced result.1 mallocs.entry) :
    ∃ after result, multipythonStart s args mallocs = some (after, result) ∧
      ((StartFails result taskCreated → after = s) ↔
        StartUndone s refs args mallocs taskCreated) := by
  have ran := mpTaskRegister_zero_eq linked mallocedNode mallocedState
  by_cases registers : StartRegisters s refs mallocs
  swap
  · have unregistered := registers
    rw [StartRegisters] at unregistered
    rw [if_neg unregistered] at ran
    refine ⟨s, .error .enomem, by simp [multipythonStart, ran], fun _ registered => ?_, fun _ _ => rfl⟩
    exact absurd registered registers
  obtain ⟨nobody, nodeNull, stateNull⟩ := registers
  obtain ⟨_, nodeFree, _⟩ := mallocedNode.resolve_left nodeNull
  rcases mpTaskRegister_spec linked 0 0 mallocedNode mallocedState with
    failed | ⟨_, middle, registered, append⟩
  · rw [if_pos ⟨nobody, nodeNull, stateNull⟩, failed] at ran
    exact absurd (congrArg Prod.snd (some.inj ran)).symm nodeNull
  have isAppended : middle = appended s (refs.getLast linked.nonempty) mallocs.node mallocs.state := by
    rw [if_pos ⟨nobody, nodeNull, stateNull⟩, registered] at ran
    exact congrArg Prod.fst (some.inj ran)
  obtain ⟨middleLedger, middleLinked⟩ := append.linked
  have member : mallocs.node ∈ refs ++ [mallocs.node] := by simp
  -- A memory with the new context in it is not the one before the call.
  have changed : ∀ {after : MpContexts σ κ} {node : MpContextNode},
      after.contexts mallocs.node = some node → after ≠ s := by
    rintro after node there rfl
    rw [nodeFree] at there
    cases there
  have registers : StartRegisters s refs mallocs := ⟨nobody, nodeNull, stateNull⟩
  cases source : args.source with
  | none =>
    refine ⟨middle, .error .typeError, by simp [multipythonStart, registered, nodeNull, source],
      fun atomic => ?_, fun undone => ?_⟩
    · exact absurd (atomic (Or.inl rfl)) (changed (middleLinked.loaded member))
    · have isString := (undone registers).1
      rw [source] at isString
      cases isString
  | some length =>
    rcases mpContextDynmemAlloc_cases middleLinked member (length + 1) mallocs.source
        (mallocedEntry _ registered) with ⟨failed, isNull⟩ | ⟨entry, copy, copied, ran, kept, _⟩
    · have removed := appended_removed linked mallocedNode mallocedState nodeNull stateNull
        (isAppended ▸ ⟨middleLedger, middleLinked⟩)
      rw [← isAppended] at removed
      refine ⟨s, .error .enomem, ?_, fun _ _ => ⟨by simp [source], ?_⟩, fun _ _ => rfl⟩
      · simp [multipythonStart, registered, nodeNull, source, failed, removed]
      · exact isNull.imp_right Or.inl
    · obtain ⟨copiedLedger, copiedLinked⟩ := kept.linked
      obtain ⟨node, started⟩ : ∃ node, multipythonStart s args mallocs =
          some (copied.setContext mallocs.node node, .ok mallocs.node) := by
        apply Exists.intro
        simp only [multipythonStart, registered, nodeNull, source, ran, copy,
          copiedLinked.loaded member, if_false, bind_eq_bind, bind_some]
        rfl
      refine ⟨_, _, started, fun atomic _ => ?_, fun undone fails => ?_⟩
      · refine ⟨by simp [source], Or.inr (Or.inr ?_)⟩
        by_contra notCreated
        exact changed (update_self _ _ _) (atomic (Or.inr (by simpa using notCreated)))
      · rcases (undone registers).2 with isNull | isNull | created
        · exact absurd isNull entry
        · exact absurd isNull copy
        · rcases fails with raised | notCreated
          · cases raised
          · rw [created] at notCreated
            cases notCreated

end Failing

/-- The default context with its main task. -/
def onlyMain : MpContexts Nat Unit :=
  (MpContexts.initial 4 8 0).setContext 4 { MpContextNode.zeroed with id := 100, state := 8 }

theorem onlyMain_linked : WellLinked onlyMain [4] fun _ => [] :=
  (@MpContexts.initial_linked Nat Unit 4 8 0 (by decide) (by decide)).setContext rfl rfl rfl

/-- There is no memory for the copy of the source. -/
theorem multipythonStart_atomic_uncopied :
    ∃ after result, multipythonStart onlyMain ⟨some 3, none, none⟩ ⟨16, 20, 24, 0⟩ =
      some (after, result) ∧ (StartFails result true → after = onlyMain) := by
  obtain ⟨after, result, ran, atomic⟩ := @multipythonStart_atomic_iff Nat Unit _
    onlyMain [4] (fun _ => []) onlyMain_linked ⟨some 3, none, none⟩ ⟨16, 20, 24, 0⟩ true (Or.inr (by decide)) (Or.inr (by decide))
    (by decide)
  exact ⟨after, result, ran, atomic.mpr fun _ => ⟨rfl, Or.inr (Or.inl rfl)⟩⟩

/-- A source that is no string leaves the new context in the list, with the id 0, and the next
call fails although there is memory. -/
theorem multipythonStart_leaves_context :
    ∃ after, multipythonStart onlyMain ⟨none, none, none⟩ ⟨16, 20, 24, 28⟩ =
        some (after, .error .typeError) ∧
      ¬ (StartFails (.error .typeError) true → after = onlyMain) ∧
      after.contextList = [4, 16] ∧
      (multipythonStart after ⟨some 3, none, none⟩ ⟨32, 36, 40, 44⟩).map Prod.snd =
        some (.error .enomem) ∧
      (multipythonStart onlyMain ⟨some 3, none, none⟩ ⟨32, 36, 40, 44⟩).map Prod.snd =
        some (.ok 32) := by
  let after := ((multipythonStart onlyMain ⟨none, none, none⟩ ⟨16, 20, 24, 28⟩).map
    Prod.fst).getD onlyMain
  have listed : onlyMain.contextList = [4] := by decide
  have left : after.contextList = [4, 16] := by decide
  refine ⟨after, by rfl, fun atomic => ?_, left, by rfl, by rfl⟩
  rw [atomic (Or.inl rfl), listed] at left
  cases left

end MultiPython.Esp32
