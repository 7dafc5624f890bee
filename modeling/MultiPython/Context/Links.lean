import MultiPython.Context.Store

/-!
# The links between contexts

`WellLinked` is the shape of the memory: the contexts form one chain from
`mp_context_head`, every context has a state of its own, and its ledger is a
chain that shares no entry with another one. For each function there is one
lemma that says which list of contexts it leaves behind; no proof elsewhere
follows a link.
-/

namespace MultiPython.Context

open Logic

variable {σ κ : Type} {s : MpContexts σ κ} {ref : Ref} {node : MpContextNode}

namespace MpContexts

/-- The node at an address where there is one. -/
def nodeOf (s : MpContexts σ κ) (ref : Ref) : MpContextNode := (s.contexts ref).getD .zeroed

theorem nodeOf_eq (loaded : s.contexts ref = some node) : s.nodeOf ref = node := by
  simp [nodeOf, loaded]

theorem setContext_nodeOf (s : MpContexts σ κ) (ref : Ref) (node : MpContextNode) (other : Ref) :
    (s.setContext ref node).nodeOf other = if other = ref then node else s.nodeOf other := by
  unfold nodeOf setContext
  by_cases same : other = ref
  · simp [same]
  · simp [same]

end MpContexts

/-- The nodes differ at most in their links. -/
def SameButLinks (before after : MpContextNode) : Prop :=
  { after with next := before.next, memhead := before.memhead } = before

theorem SameButLinks.refl (node : MpContextNode) : SameButLinks node node := rfl

theorem SameButLinks.trans {before middle after : MpContextNode}
    (first : SameButLinks before middle) (second : SameButLinks middle after) :
    SameButLinks before after := by
  unfold SameButLinks at *
  rw [← first, ← second]

section

variable {before after : MpContextNode} (same : SameButLinks before after)

include before after same

theorem SameButLinks.id_eq :
    after.id = before.id := by
  rw [← same]

theorem SameButLinks.state_eq :
    after.state = before.state := by
  rw [← same]

theorem SameButLinks.threadctrl_eq : after.threadctrl = before.threadctrl := by
  rw [← same]

end

/-- The global variables are the same. -/
structure SameGlobals (before after : MpContexts σ κ) : Prop where
  contextHead : after.contextHead = before.contextHead
  activeContexts : after.activeContexts = before.activeContexts
  activeContextMirrors : after.activeContextMirrors = before.activeContextMirrors
  currentTIDs : after.currentTIDs = before.currentTIDs

theorem SameGlobals.refl (s : MpContexts σ κ) : SameGlobals s s := ⟨rfl, rfl, rfl, rfl⟩

theorem SameGlobals.trans {before middle after : MpContexts σ κ} (first : SameGlobals before middle)
    (second : SameGlobals middle after) : SameGlobals before after :=
  ⟨second.contextHead.trans first.contextHead, second.activeContexts.trans first.activeContexts,
    second.activeContextMirrors.trans first.activeContextMirrors,
    second.currentTIDs.trans first.currentTIDs⟩

/-- The contexts `refs` form the context list, and `ledger` are their ledgers. -/
structure WellLinked (s : MpContexts σ κ) (refs : List Ref) (ledger : Ref → List Ref) : Prop where
  chain : Chain MpContextNode.next s.contexts s.contextHead refs
  nonempty : refs ≠ []
  distinct : refs.Nodup
  bounded : ∀ ref ∈ refs, ref < addressSpace
  stated : ∀ ref ∈ refs, (s.states (s.nodeOf ref).state).isSome = true
  statesApart : ∀ ref ∈ refs, ∀ other ∈ refs, ref ≠ other →
    (s.nodeOf ref).state ≠ (s.nodeOf other).state
  ledgers : ∀ ref ∈ refs,
    Chain MpContextDynmemNode.next s.dynmems (s.nodeOf ref).memhead (ledger ref)
  ledgerDistinct : ∀ ref ∈ refs, (ledger ref).Nodup
  ledgerBounded : ∀ ref ∈ refs, ∀ entry ∈ ledger ref, entry < addressSpace
  ledgersApart : ∀ ref ∈ refs, ∀ other ∈ refs, ref ≠ other → List.Disjoint (ledger ref) (ledger other)

theorem MpContexts.initial_linked {defaultContext : Ref} (defaultState : Ref) (state : σ)
    (notNull : defaultContext ≠ 0) (bounded : defaultContext < addressSpace) :
    WellLinked (MpContexts.initial (κ := κ) defaultContext defaultState state) [defaultContext]
      fun _ => [] := by
  have loaded : (MpContexts.initial (κ := κ) defaultContext defaultState state).contexts
      defaultContext = some { MpContextNode.zeroed with state := defaultState } := by
    simp [MpContexts.initial]
  have node := MpContexts.nodeOf_eq loaded
  refine ⟨.cons notNull loaded .nil, by simp, by simp, by simpa using bounded,
    ?_, by simp, ?_, by simp, by simp, by simp⟩
  · simp only [List.mem_singleton]
    rintro ref rfl
    rw [node]
    simp [MpContexts.initial]
  · simp only [List.mem_singleton]
    rintro ref rfl
    rw [node]
    exact .nil

namespace WellLinked

variable {s after : MpContexts σ κ} {refs : List Ref} {ledger : Ref → List Ref} {ref : Ref}

section

variable (linked : WellLinked s refs ledger)

include linked

theorem loaded (member : ref ∈ refs) : s.contexts ref = some (s.nodeOf ref) := by
  obtain ⟨node, loaded⟩ := linked.chain.loaded ref member
  rw [MpContexts.nodeOf_eq loaded, loaded]

theorem head_mem : s.contextHead ∈ refs := by
  have start := linked.chain.start_eq
  cases refs with
  | nil => exact absurd rfl linked.nonempty
  | cons first rest => simp [start]

theorem length_lt : refs.length < addressSpace :=
  length_lt_of_nodup linked.distinct linked.chain.ne_zero linked.bounded (by decide)

theorem find_eq (stop : MpContextNode → Bool) :
    walk MpContextNode.next s.contexts stop addressSpace s.contextHead =
      some ((refs.find? fun ref => stop (s.nodeOf ref)).getD 0) := by
  rw [linked.chain.walk_eq stop linked.length_lt]
  congr 2
  apply List.find?_congr
  intro ref member
  simp [meets, linked.loaded member]

theorem byTid_eq (tID : Nat) :
    s.mpContextByTid tID =
      some ((refs.find? fun ref => (s.nodeOf ref).id == tID).getD 0) :=
  linked.find_eq _

theorem contextList_eq : s.contextList = refs :=
  linked.chain.follow_eq linked.length_lt.le

theorem byTid_cases (tID : Nat) :
    (s.mpContextByTid tID = some 0 ∧ ∀ ref ∈ refs, (s.nodeOf ref).id ≠ tID) ∨
      ∃ ref ∈ refs, s.mpContextByTid tID = some ref ∧ (s.nodeOf ref).id = tID := by
  rw [linked.byTid_eq]
  cases found : refs.find? fun ref => (s.nodeOf ref).id == tID with
  | none =>
    refine Or.inl ⟨rfl, fun ref member => ?_⟩
    simpa using List.find?_eq_none.mp found ref member
  | some ref =>
    have here := List.find?_some found
    exact Or.inr ⟨ref, List.mem_of_find?_eq_some found, rfl, by simpa using here⟩

theorem next_eq (member : ref ∈ refs) :
    (s.contexts ref).map MpContextNode.next = some (s.nodeOf ref).next := by
  rw [linked.loaded member, Option.map_some]

end

theorem predecessor_eq {early late : List Ref} {before ref : Ref}
    (linked : WellLinked s (early ++ before :: ref :: late) ledger) :
    s.mpContextPredecessor ref = some before := by
  rw [MpContexts.mpContextPredecessor, linked.chain.walk_eq _ linked.length_lt,
    linked.chain.find_link linked.distinct]
  rfl

theorem predecessor_unlisted (linked : WellLinked s refs ledger) (notNull : ref ≠ 0)
    (unlisted : ref ∉ refs) : s.mpContextPredecessor ref = some 0 := by
  rw [MpContexts.mpContextPredecessor, linked.find_eq]
  have nowhere : (refs.find? fun other => (s.nodeOf other).next == ref) = none := by
    apply List.find?_eq_none.mpr
    intro other member here
    obtain rfl : (s.nodeOf other).next = ref := by simpa using here
    rcases linked.chain.link_mem_tail member (linked.loaded member) with ends | later
    · exact notNull ends
    · exact unlisted (List.mem_of_mem_tail later)
  rw [nowhere]
  rfl

theorem predecessor_head (linked : WellLinked s refs ledger) :
    s.mpContextPredecessor s.contextHead = some 0 := by
  rw [MpContexts.mpContextPredecessor, linked.chain.walk_eq _ linked.length_lt,
    linked.chain.find_first linked.nonempty linked.distinct]
  rfl

theorem tail_eq (linked : WellLinked s refs ledger) :
    s.mpContextTail = some (refs.getLast linked.nonempty) := by
  obtain ⟨early, last, rfl⟩ : ∃ early last, refs = early ++ [last] :=
    ⟨refs.dropLast, refs.getLast linked.nonempty, (List.dropLast_append_getLast _).symm⟩
  rw [MpContexts.mpContextTail, MpContexts.mpContextPredecessor,
    linked.chain.walk_eq _ linked.length_lt, linked.chain.find_last, List.getLast_append_singleton]
  rfl

section

variable (linked : WellLinked s refs ledger) (head : after.contextHead = s.contextHead)
  (nodes : ∀ ref ∈ refs, ∃ node, after.contexts ref = some node ∧ node.next = (s.nodeOf ref).next ∧ node.state = (s.nodeOf ref).state ∧ node.memhead = (s.nodeOf ref).memhead)

include linked head nodes

theorem reframe_stated (stated : ∀ ref ∈ refs, (after.states (s.nodeOf ref).state).isSome = true)
    (dynmems : ∀ ref ∈ refs, ∀ entry ∈ ledger ref, after.dynmems entry = s.dynmems entry) :
    WellLinked after refs ledger := by
  have fields : ∀ ref ∈ refs, (after.nodeOf ref).state = (s.nodeOf ref).state ∧
      (after.nodeOf ref).memhead = (s.nodeOf ref).memhead := by
    intro ref member
    obtain ⟨node, loaded, _, state, memhead⟩ := nodes ref member
    rw [MpContexts.nodeOf_eq loaded]
    exact ⟨state, memhead⟩
  refine ⟨?_, linked.nonempty, linked.distinct, linked.bounded, ?_, ?_, ?_, linked.ledgerDistinct,
    linked.ledgerBounded, linked.ledgersApart⟩
  · rw [head]
    refine linked.chain.congr fun ref member => ?_
    obtain ⟨node, loaded, next, _⟩ := nodes ref member
    rw [loaded, linked.loaded member, Option.map_some, Option.map_some, next]
  · intro ref member
    rw [(fields ref member).1]
    exact stated ref member
  · intro ref member other otherMember
    rw [(fields ref member).1, (fields other otherMember).1]
    exact linked.statesApart ref member other otherMember
  · intro ref member
    rw [(fields ref member).2]
    exact (linked.ledgers ref member).congr fun entry inLedger => by rw [dynmems ref member entry inLedger]

theorem reframe
    (states : ∀ ref ∈ refs, after.states (s.nodeOf ref).state = s.states (s.nodeOf ref).state)
    (dynmems : ∀ ref ∈ refs, ∀ entry ∈ ledger ref, after.dynmems entry = s.dynmems entry) :
    WellLinked after refs ledger :=
  linked.reframe_stated head nodes
    (fun ref member => (states ref member).symm ▸ linked.stated ref member) dynmems

end

theorem setContext (linked : WellLinked s refs ledger) (next : node.next = (s.nodeOf ref).next)
    (state : node.state = (s.nodeOf ref).state) (memhead : node.memhead = (s.nodeOf ref).memhead) :
    WellLinked (s.setContext ref node) refs ledger := by
  refine linked.reframe rfl (fun other member => ?_) (fun _ _ => rfl) fun _ _ _ _ => rfl
  by_cases same : other = ref
  · subst same
    exact ⟨node, Function.update_self _ _ _, next, state, memhead⟩
  · exact ⟨s.nodeOf other, (Function.update_of_ne same _ _).trans (linked.loaded member), rfl, rfl, rfl⟩

end WellLinked

/-! ## Appending a context -/

/-- What `malloc` may return: `NULL`, or an address where nothing is allocated. -/
def Malloced (s : MpContexts σ κ) (ref : Ref) : Prop :=
  ref = 0 ∨ ref < addressSpace ∧ s.contexts ref = none ∧ s.states ref = none ∧
    s.dynmems ref = none ∧ s.blocks ref = none

instance (s : MpContexts σ κ) (ref : Ref) : Decidable (Malloced s ref) :=
  inferInstanceAs (Decidable (ref = 0 ∨ ref < addressSpace ∧ s.contexts ref = none ∧
    s.states ref = none ∧ s.dynmems ref = none ∧ s.blocks ref = none))

/-- A new context with an id and without threads is the last of the list. -/
structure Appended (s : MpContexts σ κ) (refs : List Ref) (ref : Ref) (id : Nat)
    (after : MpContexts σ κ) : Prop where
  fresh : ref ∉ refs
  notNull : ref ≠ 0
  linked : ∃ ledger, WellLinked after (refs ++ [ref]) ledger
  id_eq : (after.nodeOf ref).id = id
  threadless : (after.nodeOf ref).threadctrl = 0
  others : ∀ other ∈ refs, SameButLinks (s.nodeOf other) (after.nodeOf other)
  globals : SameGlobals s after

variable {refs : List Ref} {ledger : Ref → List Ref}

theorem Malloced.not_mem (linked : WellLinked s refs ledger) (malloced : Malloced s ref)
    (notNull : ref ≠ 0) : ref ∉ refs := by
  intro member
  obtain ⟨_, free, _⟩ := malloced.resolve_left notNull
  simp [linked.loaded member] at free

/-- `mp_context_append` of a node that is allocated and not in the list. -/
theorem mpContextAppend_spec (linked : WellLinked s refs ledger) (notNull : ref ≠ 0)
    (bounded : ref < addressSpace) (fresh : ref ∉ refs) (loaded : s.contexts ref = some node)
    (stated : (s.states node.state).isSome = true)
    (stateApart : ∀ other ∈ refs, (s.nodeOf other).state ≠ node.state) (empty : node.memhead = 0) :
    ∃ after, s.mpContextAppend ref = some after ∧
      WellLinked after (refs ++ [ref]) (Function.update ledger ref []) ∧
      after.nodeOf ref = { node with next := 0 } ∧
      (∀ other ∈ refs, SameButLinks (s.nodeOf other) (after.nodeOf other)) ∧
      SameGlobals s after := by
  have lastMem := List.getLast_mem linked.nonempty
  have lastNotNull := linked.chain.ne_zero _ lastMem
  have apart : ref ≠ refs.getLast linked.nonempty := fun same => fresh (same ▸ lastMem)
  generalize lastEq : refs.getLast linked.nonempty = last at lastMem lastNotNull apart
  let after := (s.setContext last { s.nodeOf last with next := ref }).setContext ref
    { node with next := 0 }
  have atRef : after.contexts ref = some { node with next := 0 } := Function.update_self _ _ _
  have atLast : after.contexts last = some { s.nodeOf last with next := ref } :=
    (Function.update_of_ne apart.symm _ _).trans (Function.update_self _ _ _)
  have atOther : ∀ other ∈ refs, other ≠ last → after.contexts other = s.contexts other := by
    intro other member different
    have notRef : other ≠ ref := fun same => fresh (same ▸ member)
    exact (Function.update_of_ne notRef _ _).trans (Function.update_of_ne different _ _)
  have others : ∀ other ∈ refs, SameButLinks (s.nodeOf other) (after.nodeOf other) := by
    intro other member
    by_cases isLast : other = last
    · subst isLast
      rw [MpContexts.nodeOf_eq atLast]
      rfl
    · have same : after.nodeOf other = s.nodeOf other := by
        simp only [MpContexts.nodeOf, atOther other member isLast]
      rw [same]
      exact SameButLinks.refl _
  have fields : ∀ other ∈ refs, (after.nodeOf other).state = (s.nodeOf other).state ∧
      (after.nodeOf other).memhead = (s.nodeOf other).memhead := by
    intro other member
    by_cases isLast : other = last
    · subst isLast
      rw [MpContexts.nodeOf_eq atLast]
      exact ⟨rfl, rfl⟩
    · simp only [MpContexts.nodeOf, atOther other member isLast, and_self]
  refine ⟨after, ?_, ?_, MpContexts.nodeOf_eq atRef, others, ⟨rfl, rfl, rfl, rfl⟩⟩
  · have read : (s.setContext last { s.nodeOf last with next := ref }).contexts ref = some node :=
      (Function.update_of_ne apart _ _).trans loaded
    simp [MpContexts.mpContextAppend, notNull, linked.tail_eq, lastEq, lastNotNull,
      linked.loaded lastMem, read, after]
  · have ledgerOther : ∀ other ∈ refs, Function.update ledger ref [] other = ledger other :=
      fun other member =>
        Function.update_of_ne (fun same : other = ref => fresh (same ▸ member)) _ _
    refine ⟨?_, by simp, ?_, ?_, ?_, ?_, ?_, ?_, ?_, ?_⟩
    · refine linked.chain.snoc linked.nonempty notNull ?_ ?_ ?_ linked.distinct
      · rw [lastEq, atLast]
        rfl
      · rw [atRef]
        rfl
      · intro other member different
        rw [atOther other member (lastEq ▸ different)]
    · exact List.Nodup.append linked.distinct (List.nodup_singleton ref) (by simpa using fresh)
    · simp only [List.mem_append, List.mem_singleton]
      rintro other (member | rfl)
      · exact linked.bounded other member
      · exact bounded
    · simp only [List.mem_append, List.mem_singleton]
      rintro other (member | rfl)
      · rw [(fields other member).1]
        exact linked.stated other member
      · rw [MpContexts.nodeOf_eq atRef]
        exact stated
    · simp only [List.mem_append, List.mem_singleton]
      rintro one (member | rfl) other (otherMember | rfl) different
      · rw [(fields one member).1, (fields other otherMember).1]
        exact linked.statesApart one member other otherMember different
      · rw [(fields one member).1, MpContexts.nodeOf_eq atRef]
        exact stateApart one member
      · rw [(fields other otherMember).1, MpContexts.nodeOf_eq atRef]
        exact (stateApart other otherMember).symm
      · exact absurd rfl different
    · simp only [List.mem_append, List.mem_singleton]
      rintro other (member | rfl)
      · rw [(fields other member).2, ledgerOther other member]
        exact linked.ledgers other member
      · rw [MpContexts.nodeOf_eq atRef, Function.update_self]
        simpa [empty] using Chain.nil
    · simp only [List.mem_append, List.mem_singleton]
      rintro other (member | rfl)
      · rw [ledgerOther other member]
        exact linked.ledgerDistinct other member
      · simp
    · simp only [List.mem_append, List.mem_singleton]
      rintro other (member | rfl)
      · rw [ledgerOther other member]
        exact linked.ledgerBounded other member
      · simp
    · simp only [List.mem_append, List.mem_singleton]
      rintro one (member | rfl) other (otherMember | rfl) different
      · rw [ledgerOther one member, ledgerOther other otherMember]
        exact linked.ledgersApart one member other otherMember different
      · simp
      · simp
      · exact absurd rfl different

/-- `mp_context_append_new` changes nothing or appends a context with the id 0. -/
theorem mpContextAppendNew_spec [Zero σ] (linked : WellLinked s refs ledger)
    {mallocNode mallocState : Ref} (mallocedNode : Malloced s mallocNode)
    (mallocedState : Malloced (s.mpNewContextNode mallocNode).1 mallocState) :
    s.mpContextAppendNew mallocNode mallocState = some (s, 0) ∨
      ∃ after, s.mpContextAppendNew mallocNode mallocState = some (after, mallocNode) ∧
        Appended s refs mallocNode 0 after := by
  by_cases nodeNull : mallocNode = 0
  · exact Or.inl (by simp [MpContexts.mpContextAppendNew, MpContexts.mpNewContextNode, nodeNull])
  have nodeFresh := mallocedNode.not_mem linked nodeNull
  obtain ⟨nodeBounded, nodeFree, _⟩ := mallocedNode.resolve_left nodeNull
  by_cases stateNull : mallocState = 0
  · have unallocated : Function.update s.contexts mallocNode none = s.contexts := by
      rw [← nodeFree, Function.update_eq_self]
    exact Or.inl (by
      simp [MpContexts.mpContextAppendNew, MpContexts.mpNewContextNode, MpContexts.mpNewState,
        MpContexts.setContext, MpContexts.freeContext, nodeNull, stateNull, unallocated])
  have stateFree : s.states mallocState = none := by
    obtain ⟨_, _, free, _⟩ := mallocedState.resolve_left stateNull
    simpa [MpContexts.mpNewContextNode, nodeNull, MpContexts.setContext] using free
  let created : MpContexts σ κ :=
    { s with
      contexts := Function.update s.contexts mallocNode
        (some { MpContextNode.zeroed with state := mallocState })
      states := Function.update s.states mallocState (some 0) }
  have sameNode : ∀ other ∈ refs, created.contexts other = s.contexts other := by
    intro other member
    exact Function.update_of_ne (fun same : other = mallocNode => nodeFresh (same ▸ member)) _ _
  have sameNodeOf : ∀ other ∈ refs, created.nodeOf other = s.nodeOf other := by
    intro other member
    simp only [MpContexts.nodeOf, sameNode other member]
  have otherState : ∀ other ∈ refs, (s.nodeOf other).state ≠ mallocState := by
    intro other member same
    have stated := linked.stated other member
    simp [same, stateFree] at stated
  have stillLinked : WellLinked created refs ledger := by
    refine linked.reframe rfl (fun other member => ?_) (fun other member => ?_) fun _ _ _ _ => rfl
    · exact ⟨s.nodeOf other, (sameNode other member).trans (linked.loaded member), rfl, rfl, rfl⟩
    · exact Function.update_of_ne (otherState other member) _ _
  obtain ⟨after, appended, afterLinked, node, others, globals⟩ :=
    mpContextAppend_spec stillLinked nodeNull nodeBounded nodeFresh (Function.update_self _ _ _)
      (by simp [created]) (fun other member => by
        rw [sameNodeOf other member]
        exact otherState other member) rfl
  refine Or.inr ⟨after, ?_, nodeFresh, nodeNull, ⟨_, afterLinked⟩, by rw [node]; rfl, by rw [node]; rfl,
    fun other member => ?_, ⟨globals.1, globals.2, globals.3, globals.4⟩⟩
  · have unfolded : s.mpContextAppendNew mallocNode mallocState =
        (created.mpContextAppend mallocNode).bind fun s => some (s, mallocNode) := by
      simp [MpContexts.mpContextAppendNew, MpContexts.mpNewContextNode, MpContexts.mpNewState,
        MpContexts.setContext, nodeNull, stateNull, created]
    rw [unfolded, appended]
    rfl
  · rw [← sameNodeOf other member]
    exact others other member

end MultiPython.Context
