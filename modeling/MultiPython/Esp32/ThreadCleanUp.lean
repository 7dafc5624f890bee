import MultiPython.Esp32.Runtime

/-!
# Cleaning up after a thread

The lists of threads that `mpthreadport.c` keeps for the contexts, one singly-linked list in
the thread control of each, and `vPortCleanUpTCB`, which is to take the node of a task that
has ended out of them. The loop declares a trailing pointer `prev` and never moves it, so the list
of the context is made to start behind the node, wherever the node was.
-/

namespace MultiPython.Esp32

open Context Logic List Option Function

variable {σ κ : Type}

structure ThreadT where
  id : Nat
  ready : Nat
  arg : Ref
  stack : Ref
  stackLen : Nat
  next : Ref
deriving DecidableEq, Repr

/-- The contexts and their threads. -/
structure ThreadLists (σ κ : Type) where
  memory : MpContexts σ κ
  /-- The `ctx_thread_ctrl_t` objects, of which the field `thread` is kept. -/
  threadCtrls : Ref → Option Ref
  threads : Ref → Option ThreadT

namespace ThreadLists

variable (s : ThreadLists σ κ) (tcb : Nat)

/-- The loop of `vPortCleanUpTCB` over the threads of a context, from `th` on: the memory, and
whether it left with `goto cleanup_complete`. -/
def cleanUpThreads (prev threadCtrl : Ref) : Nat → Ref → Option (ThreadLists σ κ × Bool)
  | 0, _ => none
  | fuel + 1, th =>
    if th = 0 then
      some (s, false)
    else do
      let node ← s.threads th
      if node.id = tcb then
        if prev ≠ 0 then do
          let before ← s.threads prev
          let relinked := Function.update s.threads prev (some { before with next := node.next })
          some ({ s with threads := Function.update relinked th none }, true)
        else
          some
            ({ s with
              threadCtrls := Function.update s.threadCtrls threadCtrl (some node.next)
              threads := Function.update s.threads th none }, true)
      else
        cleanUpThreads prev threadCtrl fuel node.next

/-- The loop of `vPortCleanUpTCB` over the contexts, from `citer` on. -/
def cleanUpContexts (prev : Ref) : Nat → Ref → Option (ThreadLists σ κ)
  | 0, _ => none
  | fuel + 1, citer =>
    if citer = 0 then
      some s
    else do
      let context ← s.memory.contexts citer
      if context.threadctrl = 0 then
        cleanUpContexts prev fuel context.next
      else
        let thread ← s.threadCtrls context.threadctrl
        let (cleaned, complete) ←
          s.cleanUpThreads tcb prev context.threadctrl addressSpace thread
        if complete then some cleaned else cleanUpContexts prev fuel context.next

def vPortCleanUpTCB : Option (ThreadLists σ κ) :=
  let prev : Ref := 0
  s.cleanUpContexts tcb prev addressSpace s.memory.contextHead

/-! ## Lists of threads -/

/-- The thread control of a context, or `NULL`. -/
def controlOf (context : Ref) : Ref := (s.memory.nodeOf context).threadctrl

/-- The nodes in the list of a context. -/
def threadList (context : Ref) : List Ref :=
  if s.controlOf context = 0 then []
  else follow ThreadT.next s.threads addressSpace ((s.threadCtrls (s.controlOf context)).getD 0)

/-- The node is that of the task. -/
def isThread (th : Ref) : Bool := meets s.threads (fun node => node.id == tcb) th

/-- The list of a context has a node of the task. -/
def hasThread (context : Ref) : Bool := (s.threadList context).any (s.isThread tcb)

end ThreadLists

/-- The contexts `refs` form the context list, and `lists` are the lists of their threads. -/
structure ThreadsLinked (s : ThreadLists σ κ) (refs : List Ref) (lists : Ref → List Ref) : Prop where
  linked : ∃ ledger, WellLinked s.memory refs ledger
  uncontrolled : ∀ context ∈ refs, s.controlOf context = 0 → lists context = []
  controlled : ∀ context ∈ refs, s.controlOf context ≠ 0 →
    ∃ start, s.threadCtrls (s.controlOf context) = some start ∧
      Chain ThreadT.next s.threads start (lists context)
  controlsApart : ∀ context ∈ refs, ∀ other ∈ refs, context ≠ other → s.controlOf context ≠ 0 →
    s.controlOf context ≠ s.controlOf other
  distinct : ∀ context ∈ refs, (lists context).Nodup
  bounded : ∀ context ∈ refs, ∀ th ∈ lists context, th < addressSpace
  apart : ∀ context ∈ refs, ∀ other ∈ refs, context ≠ other →
    List.Disjoint (lists context) (lists other)

namespace ThreadsLinked

variable {s : ThreadLists σ κ} {refs : List Ref} {lists : Ref → List Ref} {tcb : Nat}

theorem length_lt (linked : ThreadsLinked s refs lists) {context : Ref} (member : context ∈ refs) :
    (lists context).length < addressSpace := by
  by_cases control : s.controlOf context = 0
  · rw [linked.uncontrolled context member control]
    decide
  · obtain ⟨_, _, chain⟩ := linked.controlled context member control
    exact length_lt_of_nodup (linked.distinct context member) chain.ne_zero
      (linked.bounded context member) (by decide)

theorem threadList_eq (linked : ThreadsLinked s refs lists) {context : Ref}
    (member : context ∈ refs) : s.threadList context = lists context := by
  by_cases control : s.controlOf context = 0
  · rw [ThreadLists.threadList, if_pos control, linked.uncontrolled context member control]
  · obtain ⟨start, loaded, chain⟩ := linked.controlled context member control
    rw [ThreadLists.threadList, if_neg control, loaded, getD_some]
    exact chain.follow_eq (linked.length_lt member).le

end ThreadsLinked

/-! ## What the loops do -/

section Loops

variable {s : ThreadLists σ κ} {refs : List Ref} {lists : Ref → List Ref} {tcb : Nat}

/-- The list of a context starts behind one of its nodes, and the node is gone. -/
def ThreadLists.cutBehind (s : ThreadLists σ κ) (context th : Ref) : ThreadLists σ κ :=
  { s with
    threadCtrls := Function.update s.threadCtrls (s.controlOf context)
      (some (((s.threads th).map ThreadT.next).getD 0))
    threads := Function.update s.threads th none }

theorem cleanUpThreads_eq {context start : Ref} {list : List Ref}
    (chain : Chain ThreadT.next s.threads start list) {fuel : Nat} (enough : list.length < fuel) :
    s.cleanUpThreads tcb 0 (s.controlOf context) fuel start =
      some ((list.find? (s.isThread tcb)).elim (s, false) fun th => (s.cutBehind context th, true)) := by
  induction chain generalizing fuel with
  | nil =>
    obtain ⟨fuel, rfl⟩ : ∃ more, fuel = more + 1 := ⟨fuel - 1, by omega⟩
    simp [ThreadLists.cleanUpThreads]
  | @cons th node rest notNull loaded _ ih =>
    rw [length_cons] at enough
    obtain ⟨fuel, rfl⟩ : ∃ more, fuel = more + 1 := ⟨fuel - 1, by omega⟩
    have here : s.isThread tcb th = decide (node.id = tcb) := by
      simp only [ThreadLists.isThread, meets, loaded, map_some, getD_some]
      rfl
    rw [find?_cons, here]
    by_cases isIt : node.id = tcb
    · simp [ThreadLists.cleanUpThreads, notNull, loaded, isIt, ThreadLists.cutBehind]
    · simp only [ThreadLists.cleanUpThreads, notNull, if_false, loaded, bind_eq_bind,
        bind_some, isIt, decide_false]
      exact ih (by omega)

/-- The loop over the contexts cuts the list of the first context that has the task. -/
theorem cleanUpContexts_eq (linked : ThreadsLinked s refs lists) {start : Ref} {rest : List Ref}
    (chain : Chain MpContextNode.next s.memory.contexts start rest) (inside : rest ⊆ refs)
    {fuel : Nat} (enough : rest.length < fuel) :
    s.cleanUpContexts tcb 0 fuel start =
      some ((rest.find? (s.hasThread tcb)).elim s fun context =>
        ((lists context).find? (s.isThread tcb)).elim s (s.cutBehind context)) := by
  obtain ⟨ledger, contexts⟩ := linked.linked
  induction chain generalizing fuel with
  | nil =>
    obtain ⟨fuel, rfl⟩ : ∃ more, fuel = more + 1 := ⟨fuel - 1, by omega⟩
    simp [ThreadLists.cleanUpContexts]
  | @cons context node rest notNull loaded _ ih =>
    rw [length_cons] at enough
    obtain ⟨fuel, rfl⟩ : ∃ more, fuel = more + 1 := ⟨fuel - 1, by omega⟩
    have member : context ∈ refs := inside mem_cons_self
    have isControl : node.threadctrl = s.controlOf context := by
      rw [ThreadLists.controlOf, MpContexts.nodeOf_eq loaded]
    have later := @ih
      (fun other belongs => inside (mem_cons_of_mem _ belongs)) fuel (by omega)
    have has : s.hasThread tcb context = (lists context).any (s.isThread tcb) := by
      rw [ThreadLists.hasThread, linked.threadList_eq member]
    rw [find?_cons, has]
    simp only [ThreadLists.cleanUpContexts, notNull, if_false, loaded, bind_eq_bind,
      bind_some, isControl]
    by_cases control : s.controlOf context = 0
    · rw [if_pos control, linked.uncontrolled context member control, later]
      rfl
    · obtain ⟨thread, isThread, threads⟩ := linked.controlled context member control
      rw [if_neg control, isThread, bind_some,
        cleanUpThreads_eq threads (linked.length_lt member), bind_some]
      cases found : (lists context).find? (s.isThread tcb) with
      | none =>
        have nobody : (lists context).any (s.isThread tcb) = false := by
          rw [Bool.eq_false_iff]
          intro some_
          obtain ⟨th, belongs, isIt⟩ := any_eq_true.mp some_
          exact find?_eq_none.mp found th belongs isIt
        rw [nobody]
        exact later
      | some th =>
        have somebody : (lists context).any (s.isThread tcb) = true :=
          any_eq_true.mpr ⟨th, mem_of_find?_eq_some found, find?_some found⟩
        rw [somebody]
        simp [found]

theorem vPortCleanUpTCB_eq (linked : ThreadsLinked s refs lists) :
    s.vPortCleanUpTCB tcb =
      some ((refs.find? (s.hasThread tcb)).elim s fun context =>
        ((lists context).find? (s.isThread tcb)).elim s (s.cutBehind context)) := by
  obtain ⟨ledger, contexts⟩ := linked.linked
  exact cleanUpContexts_eq linked contexts.chain (List.Subset.refl refs) contexts.length_lt

end Loops

/-! ## The lists that are left -/

section Cutting

variable {s : ThreadLists σ κ} {refs : List Ref} {lists : Ref → List Ref} {tcb : Nat}

theorem ThreadLists.cutBehind_threads (s : ThreadLists σ κ) (context : Ref) {th other : Ref}
    (different : other ≠ th) : (s.cutBehind context th).threads other = s.threads other :=
  update_of_ne different _ _

theorem chain_behind {threads : Ref → Option ThreadT} {start th : Ref} {early late : List Ref}
    (chain : Chain ThreadT.next threads start (early ++ th :: late)) :
    ∃ node, threads th = some node ∧ Chain ThreadT.next threads node.next late := by
  induction early generalizing start with
  | nil =>
    obtain ⟨_, _, node, loaded, tail⟩ := chain.uncons
    exact ⟨node, loaded, tail⟩
  | cons first early ih =>
    obtain ⟨_, _, _, _, tail⟩ := chain.uncons
    exact ih tail

/-- Cutting the list of a context behind a node leaves the lists of the others. -/
theorem ThreadsLinked.cutBehind (linked : ThreadsLinked s refs lists) {context th : Ref}
    {early late : List Ref} (member : context ∈ refs) (split : lists context = early ++ th :: late) :
    ThreadsLinked (s.cutBehind context th) refs (Function.update lists context late) := by
  have belongs : th ∈ lists context := by simp [split]
  have control : s.controlOf context ≠ 0 := by
    intro none
    rw [linked.uncontrolled context member none] at belongs
    cases belongs
  have fewer : ∀ other, Function.update lists context late other ⊆ lists other := by
    intro other
    by_cases here : other = context
    · rw [here, update_self, split]
      exact fun each inLate => by simp [inLate]
    · rw [update_of_ne here]
      exact List.Subset.refl _
  have distinctHere := linked.distinct context member
  rw [split] at distinctHere
  have notLate : th ∉ late := fun inLate =>
    (nodup_cons.mp (nodup_append.mp distinctHere).2.1).1 inLate
  refine ⟨linked.linked, fun other otherMember none => ?_, fun other otherMember some_ => ?_,
    linked.controlsApart, fun other otherMember => ?_,
    fun other otherMember each inList => linked.bounded other otherMember each (fewer other inList),
    fun one oneMember other otherMember different => ?_⟩
  · have empty := fewer other
    rw [linked.uncontrolled other otherMember none] at empty
    exact subset_nil.mp empty
  · by_cases here : other = context
    · subst here
      obtain ⟨start, _, chain⟩ := linked.controlled other member control
      rw [split] at chain
      obtain ⟨node, loaded, rest⟩ := chain_behind chain
      refine ⟨node.next, ?_, ?_⟩
      · simp [ThreadLists.cutBehind, ThreadLists.controlOf, loaded]
      · rw [update_self]
        refine rest.congr fun each inLate => ?_
        have different : each ≠ th := fun same => notLate (same ▸ inLate)
        rw [s.cutBehind_threads other different]
    · obtain ⟨start, loaded, chain⟩ := linked.controlled other otherMember some_
      have apart := linked.controlsApart other otherMember context member here some_
      refine ⟨start, (update_of_ne apart _ _).trans loaded, ?_⟩
      rw [update_of_ne here]
      refine chain.congr fun each inList => ?_
      have different : each ≠ th := fun same =>
        linked.apart other otherMember context member here inList (same ▸ belongs)
      rw [s.cutBehind_threads context different]
  · by_cases here : other = context
    · rw [here, update_self]
      exact (nodup_cons.mp (nodup_append.mp distinctHere).2.1).2
    · rw [update_of_ne here]
      exact linked.distinct other otherMember
  · exact fun each inOne inOther => linked.apart one oneMember other otherMember different
      (fewer one inOne) (fewer other inOther)

/-! ## Exactly the node of the task -/

/-- The node that stays is the same, apart from its link. -/
def SameThread (before after : Option ThreadT) : Prop :=
  after.map ({ · with next := 0 }) = before.map ({ · with next := 0 })

/-- The lists after the node of a task was taken out of them: one node of the task is gone from
the list of one context, or no list had such a node. All other nodes are still there, in their order. -/
structure CleanedUp (s : ThreadLists σ κ) (refs : List Ref) (tcb : Nat)
    (after : ThreadLists σ κ) : Prop where
  contexts : after.memory = s.memory
  nodes : ∀ context ∈ refs, ∀ th ∈ after.threadList context,
    SameThread (s.threads th) (after.threads th)
  lists :
    ((∀ context ∈ refs, s.hasThread tcb context = false) ∧
        ∀ context ∈ refs, after.threadList context = s.threadList context) ∨
      ∃ owner ∈ refs, ∃ early th late, s.threadList owner = early ++ th :: late ∧
        s.isThread tcb th = true ∧ after.threadList owner = early ++ late ∧
        ∀ other ∈ refs, other ≠ owner → after.threadList other = s.threadList other

/-- The first context that has the task has it at the head of its list. -/
def ThreadLists.AtHead (s : ThreadLists σ κ) (refs : List Ref) (tcb : Nat) : Prop :=
  ∀ owner, refs.find? (s.hasThread tcb) = some owner →
    ∀ th ∈ (s.threadList owner).head?, s.isThread tcb th = true

/-- `vPortCleanUpTCB` takes exactly the node of the task out if and only if there is none or it
is the head of its list. -/
theorem vPortCleanUpTCB_exact_iff (linked : ThreadsLinked s refs lists) (tcb : Nat) :
    ∃ after, s.vPortCleanUpTCB tcb = some after ∧
      (CleanedUp s refs tcb after ↔ s.AtHead refs tcb) := by
  rw [vPortCleanUpTCB_eq linked]
  refine ⟨_, rfl, ?_⟩
  cases found : refs.find? (s.hasThread tcb) with
  | none =>
    have nobody : ∀ context ∈ refs, s.hasThread tcb context = false := fun context member =>
      Bool.eq_false_iff.mpr (List.find?_eq_none.mp found context member)
    refine ⟨fun _ owner isOwner => ?_, fun _ => ⟨rfl, fun _ _ _ _ => rfl, Or.inl ⟨nobody, fun _ _ => rfl⟩⟩⟩
    rw [found] at isOwner
    cases isOwner
  | some owner =>
    have member := List.mem_of_find?_eq_some found
    have has : (lists owner).any (s.isThread tcb) = true := by
      have somebody : s.hasThread tcb owner = true := List.find?_some found
      rwa [ThreadLists.hasThread, linked.threadList_eq member] at somebody
    cases first : (lists owner).find? (s.isThread tcb) with
    | none =>
      obtain ⟨th, belongs, isIt⟩ := List.any_eq_true.mp has
      exact absurd isIt (List.find?_eq_none.mp first th belongs)
    | some th =>
      simp only [elim_some, first]
      obtain ⟨isIt, early, late, split, before⟩ := List.find?_eq_some_iff_append.mp first
      have after := linked.cutBehind member split
      have ownerAfter : (s.cutBehind owner th).threadList owner = late := by
        rw [after.threadList_eq member, update_self]
      have othersAfter : ∀ other ∈ refs, other ≠ owner →
          (s.cutBehind owner th).threadList other = s.threadList other := by
        intro other otherMember different
        rw [after.threadList_eq otherMember, update_of_ne different,
          linked.threadList_eq otherMember]
      have ownerBefore : s.threadList owner = early ++ th :: late := by
        rw [linked.threadList_eq member, split]
      constructor
      · -- The list is shorter by more than one node unless the node was its head.
        intro cleaned other isOther one isHead
        obtain rfl : owner = other := some.inj (found.symm.trans isOther)
        rcases cleaned.lists with ⟨nobody, _⟩ | ⟨changed, changedMember, left, _, right, had, _, has_, others⟩
        · have somebody : s.hasThread tcb owner = true := List.find?_some isOther
          rw [nobody owner member] at somebody
          cases somebody
        · have same : changed = owner := by
            by_contra different
            have kept := others owner member (Ne.symm different)
            rw [ownerAfter, ownerBefore] at kept
            have := congrArg List.length kept
            simp at this
            omega
          subst same
          rw [ownerBefore] at had
          rw [ownerAfter] at has_
          have lengthBefore := congrArg List.length had
          have lengthAfter := congrArg List.length has_
          simp only [length_append, length_cons] at lengthBefore lengthAfter
          have empty : early = [] := eq_nil_of_length_eq_zero (by omega)
          rw [ownerBefore, empty] at isHead
          obtain rfl : th = one := by simpa using isHead
          exact isIt
      · intro atHead
        have empty : early = [] := by
          cases early with
          | nil => rfl
          | cons one early =>
            have isHead := atHead owner found one (by simp [ownerBefore])
            exact absurd isHead (by simpa using before one mem_cons_self)
        refine ⟨rfl, fun context contextMember each inList => ?_, Or.inr ⟨owner, member, early, th,
          late, ownerBefore, isIt, ?_, othersAfter⟩⟩
        · rw [SameThread, s.cutBehind_threads]
          rintro rfl
          rw [after.threadList_eq contextMember] at inList
          by_cases here : context = owner
          · subst here
            rw [update_self] at inList
            have distinct := linked.distinct context member
            rw [split] at distinct
            exact (nodup_cons.mp (nodup_append.mp distinct).2.1).1 inList
          · rw [update_of_ne here] at inList
            exact linked.apart context contextMember owner member here inList (by simp [split])
        · rw [ownerAfter, empty, nil_append]

/-- The tasks in the list of a context, as the runtime has them. -/
def ThreadLists.threadIds (s : ThreadLists σ κ) (context : Ref) : List Nat :=
  (s.threadList context).map fun th => ((s.threads th).map ThreadT.id).getD 0

theorem unlinkThread_split {early late : List Nat} (before : ∀ id ∈ early, id ≠ tcb) :
    unlinkThread tcb (early ++ tcb :: late) = late := by
  induction early with
  | nil => simp [unlinkThread]
  | cons id early ih =>
    rw [cons_append, unlinkThread, if_neg (before id mem_cons_self)]
    exact ih fun other member => before other (mem_cons_of_mem _ member)

end Cutting

/-! ## Three threads -/

/-- The default context with its main task 100 and two threads, the younger one first. -/
def threeThreads : ThreadLists Unit Unit where
  memory := (MpContexts.initial 4 8 ()).setContext 4
    { MpContextNode.zeroed with id := 100, state := 8, threadctrl := 16 }
  threadCtrls := Function.update (fun _ => none) 16 (some 20)
  threads := Function.update (Function.update (Function.update (fun _ => none)
    20 (some ⟨400, 1, 0, 1000, 1024, 24⟩)) 24 (some ⟨300, 1, 0, 2000, 1024, 28⟩))
    28 (some ⟨100, 1, 0, 3000, 4096, 0⟩)

theorem threeThreads_linked : ThreadsLinked threeThreads [4] fun _ => [20, 24, 28] where
  linked := by
    have linked := @MpContexts.initial_linked Unit Unit 4 8 () (by decide)
      (by decide)
    exact ⟨_, linked.setContext rfl rfl rfl⟩
  uncontrolled := by decide
  controlled := by
    intro context member _
    obtain rfl : context = 4 := by simpa using member
    exact ⟨20, by decide, .cons (by decide) rfl (.cons (by decide) rfl (.cons (by decide) rfl .nil))⟩
  controlsApart := by simp
  distinct := by simp
  bounded := by decide
  apart := by simp

/-- The thread at the head of the list. -/
theorem vPortCleanUpTCB_exact_head : ∃ after, threeThreads.vPortCleanUpTCB 400 = some after ∧
    CleanedUp threeThreads [4] 400 after := by
  obtain ⟨after, ran, exact⟩ := vPortCleanUpTCB_exact_iff threeThreads_linked 400
  refine ⟨after, ran, exact.mpr fun owner found th isHead => ?_⟩
  obtain rfl : owner = 4 := by simpa using List.mem_of_find?_eq_some found
  have listed : threeThreads.threadList 4 = [20, 24, 28] := by decide
  rw [listed] at isHead
  obtain rfl : 20 = th := by simpa using isHead
  decide

/-- The end of the thread in the middle takes the younger one out of the list as well. -/
theorem vPortCleanUpTCB_drops_thread : ∃ after, threeThreads.vPortCleanUpTCB 300 = some after ∧
    after.threadList 4 = [28] ∧ ¬ CleanedUp threeThreads [4] 300 after := by
  refine ⟨(threeThreads.vPortCleanUpTCB 300).get (by decide), by simp, by decide,
    fun cleaned => ?_⟩
  have before : threeThreads.threadList 4 = [20, 24, 28] := by decide
  have left : ((threeThreads.vPortCleanUpTCB 300).get (by decide)).threadList 4 = [28] := by
    decide
  rcases cleaned.lists with ⟨nobody, _⟩ | ⟨owner, member, early, th, late, had, _, has, _⟩
  · exact absurd (nobody 4 (by simp)) (by decide)
  · obtain rfl : owner = 4 := by simpa using member
    have lengthBefore := congrArg List.length (before.symm.trans had)
    have lengthAfter := congrArg List.length (left.symm.trans has)
    simp only [length_append, length_cons, length_nil] at lengthBefore lengthAfter
    omega

end MultiPython.Esp32
