import MultiPython.Context.Ledger

/-!
# Registering and removing tasks

One lemma for each function that the tasks and the scheduler call: which list of
contexts it leaves behind, and what happened to the contexts in it. The results are
the relations `Appended`, `Removed` and `Kept`; the transition systems built
on the context list use these and nothing else.
-/

namespace MultiPython.Context

open Logic List Function

variable {σ κ : Type}

/-! ## Removing -/

/-- A context and all that belongs to it was freed, and the list closed over it. -/
structure Removed (s : MpContexts σ κ) (refs : List Ref) (ref : Ref) (after : MpContexts σ κ) :
    Prop where
  linked : ∃ ledger, WellLinked after (refs.erase ref) ledger
  freed : after.contexts ref = none
  others : ∀ other ∈ refs.erase ref, SameButLinks (s.nodeOf other) (after.nodeOf other)
  globals : SameGlobals s after

/-- Unlinking a context that is not the first one. -/
theorem WellLinked.unlink {s after : MpContexts σ κ} {early late : List Ref} {before ref : Ref}
    {ledger : Ref → List Ref} (linked : WellLinked s (early ++ before :: ref :: late) ledger)
    (head : after.contextHead = s.contextHead)
    (atBefore : after.contexts before =
      some { s.nodeOf before with next := (s.nodeOf ref).next })
    (atOther : ∀ other, other ≠ before → other ≠ ref → after.contexts other = s.contexts other)
    (states : ∀ state, state ≠ (s.nodeOf ref).state → after.states state = s.states state)
    (dynmems : ∀ entry, entry ∉ ledger ref → after.dynmems entry = s.dynmems entry) :
    WellLinked after (early ++ before :: late) ledger ∧
      ∀ other ∈ early ++ before :: late, SameButLinks (s.nodeOf other) (after.nodeOf other) := by
  have refMem : ref ∈ early ++ before :: ref :: late := by simp
  have sub : List.Sublist (early ++ before :: late) (early ++ before :: ref :: late) :=
    .append_left (.cons_cons before (.cons ref (.refl late))) early
  have moved : (ref :: (early ++ before :: late)).Nodup := by
    have middle : ((early ++ [before]) ++ ref :: late).Nodup := by simpa using linked.distinct
    simpa using nodup_middle.mp middle
  have notRef : ∀ other ∈ early ++ before :: late, other ≠ ref := by
    rintro other member rfl
    exact (nodup_cons.mp moved).1 member
  have notBefore : ∀ other ∈ early ++ late, other ≠ before := by
    rintro other member rfl
    exact (nodup_cons.mp (nodup_middle.mp (nodup_cons.mp moved).2)).1 member
  have nodes : ∀ other ∈ early ++ before :: late,
      SameButLinks (s.nodeOf other) (after.nodeOf other) ∧
        (after.nodeOf other).memhead = (s.nodeOf other).memhead := by
    intro other member
    by_cases here : other = before
    · subst here
      rw [MpContexts.nodeOf_eq atBefore]
      exact ⟨rfl, rfl⟩
    · have same : after.nodeOf other = s.nodeOf other := by
        simp only [MpContexts.nodeOf, atOther other here (notRef other member)]
      rw [same]
      exact ⟨.refl _, rfl⟩
  refine ⟨⟨?_, by simp, sub.nodup linked.distinct, fun other member => linked.bounded other
    (sub.mem member), ?_, ?_, ?_, fun other member => linked.ledgerDistinct other (sub.mem member),
    fun other member => linked.ledgerBounded other (sub.mem member),
    fun one oneMember other member => linked.ledgersApart one (sub.mem oneMember) other
      (sub.mem member)⟩, fun other member => (nodes other member).1⟩
  · rw [head]
    refine linked.chain.unlink ?_ fun other member => ?_
    · rw [atBefore, linked.loaded refMem]
      rfl
    · rw [atOther other (notBefore other member) (notRef other (by
        rcases mem_append.mp member with member | member <;> simp [member]))]
  · intro other member
    rw [(nodes other member).1.state_eq,
      states _ (linked.statesApart other (sub.mem member) ref refMem (notRef other member))]
    exact linked.stated other (sub.mem member)
  · intro one oneMember other member
    rw [(nodes one oneMember).1.state_eq, (nodes other member).1.state_eq]
    exact linked.statesApart one (sub.mem oneMember) other (sub.mem member)
  · intro other member
    rw [(nodes other member).2]
    refine (linked.ledgers other (sub.mem member)).congr fun entry inLedger => ?_
    rw [dynmems entry
      (linked.ledgersApart other (sub.mem member) ref refMem (notRef other member) inLedger)]

/-- The blocks of a removed context were freed, and the ledgers of the others are as they
were. -/
structure Dropped (s : MpContexts σ κ) (refs : List Ref) (ledger : Ref → List Ref) (ref : Ref)
    (after : MpContexts σ κ) : Prop where
  linked : WellLinked after (refs.erase ref) ledger
  dynmems : ∀ entry, entry ∉ ledger ref → after.dynmems entry = s.dynmems entry
  blocks : ∀ block, after.blocks block =
    if s.accountsFor (ledger ref) block then none else s.blocks block

section

variable {s : MpContexts σ κ} {refs : List Ref} {ledger : Ref → List Ref}
  (linked : WellLinked s refs ledger)

include s refs ledger linked

variable {ref : Ref}

/-- `mp_context_remove` of a listed context that is not the default one. -/
theorem mpContextRemove_dropped (member : ref ∈ refs) (notHead : ref ≠ s.contextHead) :
    ∃ after, s.mpContextRemove ref = some after ∧ Removed s refs ref after ∧
      Dropped s refs ledger ref after := by
  obtain ⟨early, before, late, rfl⟩ :
      ∃ early before late, refs = early ++ before :: ref :: late := by
    obtain ⟨early, late, rfl⟩ := append_of_mem member
    cases early using reverseRecOn with
    | nil => exact absurd linked.chain.start_eq.symm notHead
    | append_singleton early before => exact ⟨early, before, late, by simp⟩
  have beforeMem : before ∈ early ++ before :: ref :: late := by simp
  have erased : (early ++ before :: ref :: late).erase ref = early ++ before :: late := by
    have middle : ((early ++ [before]) ++ ref :: late).Nodup := by simpa using linked.distinct
    have absent : ref ∉ early ++ [before] := fun there =>
      (nodup_cons.mp (nodup_middle.mp middle)).1 (mem_append_left late there)
    have split := erase_append_right (ref :: late) absent
    simpa using split
  have apart : ref ≠ before := by
    rintro rfl
    simpa using nodup_middle.mp linked.distinct
  have refNotNull := linked.chain.ne_zero ref member
  have beforeNotNull := linked.chain.ne_zero before beforeMem
  have chain := linked.ledgers ref member
  let unlinked := s.setContext before { s.nodeOf before with next := (s.nodeOf ref).next }
  have refLoaded : unlinked.contexts ref = some (s.nodeOf ref) :=
    (update_of_ne apart _ _).trans (linked.loaded member)
  obtain ⟨freed, code, ran, freedSpec⟩ := mpContextDynmemFreeAll_spec refNotNull refLoaded chain
    (linked.ledgerDistinct ref member) (linked.ledgerBounded ref member)
  let after := { freed with
    states := Function.update freed.states (s.nodeOf ref).state none }.freeContext ref
  have read : freed.contexts ref = some { s.nodeOf ref with memhead := 0 } := by
    rw [freedSpec.contexts, update_self]
  have contexts : ∀ other, other ≠ ref → after.contexts other = unlinked.contexts other := by
    intro other different
    simp [after, MpContexts.freeContext, freedSpec.contexts, different]
  have globals : SameGlobals s after :=
    ⟨freedSpec.globals.1, freedSpec.globals.2, freedSpec.globals.3, freedSpec.globals.4⟩
  obtain ⟨afterLinked, others⟩ := linked.unlink globals.contextHead
    ((contexts before apart.symm).trans (update_self _ _ _))
    (fun other notBefore notRef =>
      (contexts other notRef).trans (update_of_ne notBefore _ _))
    (fun state different => by
      simp [after, MpContexts.freeContext, different, freedSpec.states, unlinked,
        MpContexts.setContext])
    fun entry absent => freedSpec.others entry absent
  refine ⟨after, ?_, ⟨⟨ledger, erased ▸ afterLinked⟩, update_self _ _ _, erased ▸ others,
    globals⟩, erased ▸ afterLinked, fun entry absent => freedSpec.others entry absent,
    freedSpec.blocks⟩
  simp [MpContexts.mpContextRemove, linked.predecessor_eq, beforeNotNull, linked.loaded member,
    linked.loaded beforeMem, unlinked, after, ran, read]

theorem mpContextRemove_spec (member : ref ∈ refs) (notHead : ref ≠ s.contextHead) :
    ∃ after, s.mpContextRemove ref = some after ∧ Removed s refs ref after := by
  obtain ⟨after, ran, removed, _⟩ := mpContextRemove_dropped linked member notHead
  exact ⟨after, ran, removed⟩

theorem mpContextRemove_cases (notNull : ref ≠ 0) :
    (s.mpContextRemove ref = some s ∧ (ref = s.contextHead ∨ ref ∉ refs)) ∨
      ref ∈ refs ∧ ref ≠ s.contextHead ∧
        ∃ after, s.mpContextRemove ref = some after ∧ Removed s refs ref after := by
  by_cases isHead : ref = s.contextHead
  · subst isHead
    exact .inl ⟨by simp [MpContexts.mpContextRemove, linked.predecessor_head], .inl rfl⟩
  · by_cases member : ref ∈ refs
    · exact .inr ⟨member, isHead, mpContextRemove_spec linked member isHead⟩
    · exact .inl ⟨by simp [MpContexts.mpContextRemove, linked.predecessor_unlisted notNull member],
        .inr member⟩

theorem mpTaskRemove_spec (tID : Nat) :
    (s.mpTaskRemove tID = some s ∧
        (s.mpContextByTid tID = some s.contextHead ∨ s.mpContextByTid tID = some 0)) ∨
      ∃ ref ∈ refs, ref ≠ s.contextHead ∧ s.mpContextByTid tID = some ref ∧
        (s.nodeOf ref).id = tID ∧
        ∃ after, s.mpTaskRemove tID = some after ∧ Removed s refs ref after := by
  have headNotNull := linked.chain.ne_zero _ linked.head_mem
  rcases linked.byTid_cases tID with ⟨found, _⟩ | ⟨ref, member, found, isId⟩
  · exact .inl ⟨by simp [MpContexts.mpTaskRemove, found, headNotNull.symm], .inr found⟩
  · by_cases isHead : ref = s.contextHead
    · subst isHead
      exact .inl ⟨by simp [MpContexts.mpTaskRemove, found], .inl found⟩
    · have notNull := linked.chain.ne_zero ref member
      obtain ⟨after, removed, spec⟩ := mpContextRemove_spec linked member isHead
      exact .inr ⟨ref, member, isHead, found, isId, after,
        by simp [MpContexts.mpTaskRemove, found, isHead, notNull, removed], spec⟩

end

/-! ## Registering -/

variable {ref : Ref} {refs : List Ref} {id : Nat}

theorem Appended.setContext {s middle : MpContexts σ κ} (appended : Appended s refs ref id middle)
    {node : MpContextNode} (next : node.next = (middle.nodeOf ref).next)
    (state : node.state = (middle.nodeOf ref).state)
    (memhead : node.memhead = (middle.nodeOf ref).memhead)
    (threadctrl : node.threadctrl = (middle.nodeOf ref).threadctrl) :
    Appended s refs ref node.id (middle.setContext ref node) := by
  obtain ⟨ledger, linked⟩ := appended.linked
  refine ⟨appended.fresh, appended.notNull, ⟨ledger, linked.setContext next state memhead⟩, ?_, ?_,
    fun other member => ?_, appended.globals.trans ⟨rfl, rfl, rfl, rfl⟩⟩
  · rw [MpContexts.setContext_nodeOf, if_pos rfl]
  · rw [MpContexts.setContext_nodeOf, if_pos rfl, threadctrl]
    exact appended.threadless
  · have different : other ≠ ref := fun same => appended.fresh (same ▸ member)
    rw [MpContexts.setContext_nodeOf, if_neg different]
    exact appended.others other member

theorem mpTaskRegister_spec [Zero σ] {s : MpContexts σ κ} {ledger : Ref → List Ref}
    (linked : WellLinked s refs ledger) (tID : Nat) (addtlargs : Ref) {mallocNode mallocState : Ref}
    (mallocedNode : Malloced s mallocNode)
    (mallocedState : Malloced (s.mpNewContextNode mallocNode).1 mallocState) :
    s.mpTaskRegister tID addtlargs mallocNode mallocState = some (s, 0) ∨
      (∀ ref ∈ refs, (s.nodeOf ref).id ≠ tID) ∧
      ∃ after, s.mpTaskRegister tID addtlargs mallocNode mallocState = some (after, mallocNode) ∧
        Appended s refs mallocNode tID after := by
  rcases linked.byTid_cases tID with ⟨found, noneHas⟩ | ⟨ref, member, found, isId⟩
  · rcases mpContextAppendNew_spec linked mallocedNode mallocedState with same | ⟨middle, ran, spec⟩
    · exact .inl (by simp [MpContexts.mpTaskRegister, found, same])
    · obtain ⟨middleLedger, middleLinked⟩ := spec.linked
      have loaded := middleLinked.loaded (show mallocNode ∈ refs ++ [mallocNode] by simp)
      let node : MpContextNode :=
        { middle.nodeOf mallocNode with
          id := tID
          args := { (middle.nodeOf mallocNode).args with inputKind := 0, source := 0, addtl := addtlargs }
          status := 0 }
      have named : Appended s refs mallocNode node.id (middle.setContext mallocNode node) :=
        spec.setContext rfl rfl rfl rfl
      refine .inr ⟨noneHas, middle.setContext mallocNode node, ?_, named⟩
      simp [MpContexts.mpTaskRegister, found, ran, spec.notNull, loaded, node]
  · exact .inl (by simp [MpContexts.mpTaskRegister, found, linked.chain.ne_zero ref member])

variable {s middle after : MpContexts σ κ}

theorem Appended.kept (appended : Appended s refs ref id middle)
    (kept : Kept middle (refs ++ [ref]) after) : Appended s refs ref id after := by
  have same := kept.others ref (by simp)
  refine ⟨appended.fresh, appended.notNull, kept.linked, same.id_eq.trans appended.id_eq,
    same.threadctrl_eq.trans appended.threadless, fun other member => ?_,
    appended.globals.trans kept.globals⟩
  exact (appended.others other member).trans (kept.others other (mem_append_left _ member))

theorem Appended.removed (appended : Appended s refs ref id middle)
    (removed : Removed middle (refs ++ [ref]) ref after) : Kept s refs after := by
  have erased : (refs ++ [ref]).erase ref = refs := by
    rw [erase_append_right _ appended.fresh]
    simp
  have linked := removed.linked
  have others := removed.others
  rw [erased] at linked others
  exact ⟨linked, fun other member => (appended.others other member).trans (others other member),
    appended.globals.trans removed.globals⟩

/-! ## Switching -/

section Switching

variable [DecidableEq κ] {s : MpContexts σ κ} {refs : List Ref} {ledger : Ref → List Ref}

/-- A listed context is active on the core. -/
def MpContexts.switched (s : MpContexts σ κ) (core : κ) (ref : Ref) : MpContexts σ κ :=
  { s with
    activeContexts := Function.update s.activeContexts core ref
    activeContextMirrors := Function.update s.activeContextMirrors core (s.nodeOf ref) }

theorem WellLinked.switched (linked : WellLinked s refs ledger) (core : κ) (ref : Ref) :
    WellLinked (s.switched core ref) refs ledger :=
  linked.reframe rfl (fun _ member => ⟨_, linked.loaded member, rfl, rfl, rfl⟩) (fun _ _ => rfl)
    fun _ _ _ _ => rfl

theorem mpContextSwitch_spec (linked : WellLinked s refs ledger) (core : κ) (member : ref ∈ refs) :
    s.mpContextSwitch core ref = some (s.switched core ref) := by
  obtain ⟨state, stated⟩ := Option.isSome_iff_exists.mp (linked.stated ref member)
  simp [MpContexts.mpContextSwitch, linked.chain.ne_zero ref member, linked.loaded member, stated,
    MpContexts.switched]

/-- A task runs on the core. -/
def MpContexts.running (s : MpContexts σ κ) (core : κ) (tID : Nat) : MpContexts σ κ :=
  { s with currentTIDs := Function.update s.currentTIDs core tID }

theorem WellLinked.running (linked : WellLinked s refs ledger) (core : κ) (tID : Nat) :
    WellLinked (s.running core tID) refs ledger :=
  linked.reframe rfl (fun _ member => ⟨_, linked.loaded member, rfl, rfl, rfl⟩) (fun _ _ => rfl)
    fun _ _ _ _ => rfl

/-- `mp_task_switched_in` switches to the first context with the id of the task. If there
is none, the context that was active before is active still. -/
theorem mpTaskSwitchedIn_spec (linked : WellLinked s refs ledger) (core : κ) (tID : Nat) :
    (s.mpTaskSwitchedIn core tID = some (s.running core tID) ∧
        ∀ ref ∈ refs, (s.nodeOf ref).id ≠ tID) ∨
      ∃ ref ∈ refs, s.mpContextByTid tID = some ref ∧ (s.nodeOf ref).id = tID ∧
        s.mpTaskSwitchedIn core tID = some ((s.running core tID).switched core ref) := by
  have unfolded : s.mpTaskSwitchedIn core tID =
      ((s.running core tID).mpContextByTid tID).bind fun node =>
        if node = 0 then some (s.running core tID) else
          (s.running core tID).mpContextSwitch core node := rfl
  rcases (linked.running core tID).byTid_cases tID with ⟨found, noneHas⟩ | ⟨ref, member, found, isId⟩
  · exact .inl ⟨by simp [unfolded, found], noneHas⟩
  · refine .inr ⟨ref, member, found, isId, ?_⟩
    have notNull := linked.chain.ne_zero ref member
    simp [unfolded, found, notNull, mpContextSwitch_spec (linked.running core tID) core member]

/-- The context has the id of the task that runs on the core. -/
def MpContexts.identified (s : MpContexts σ κ) (core : κ) (ref : Ref) : MpContexts σ κ :=
  s.setContext ref { s.nodeOf ref with id := s.currentTIDs core }

omit [DecidableEq κ] in
theorem WellLinked.identified (linked : WellLinked s refs ledger) (core : κ) (ref : Ref) :
    WellLinked (s.identified core ref) refs ledger := linked.setContext rfl rfl rfl

theorem multipythonTaskEntry_spec (linked : WellLinked s refs ledger) (core : κ)
    (member : ref ∈ refs) :
    s.multipythonTaskEntry core ref = some ((s.identified core ref).switched core ref) := by
  rw [← mpContextSwitch_spec (linked.identified core ref) core member]
  simp [MpContexts.multipythonTaskEntry, linked.loaded member, MpContexts.identified]

end Switching

end MultiPython.Context
