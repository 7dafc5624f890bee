import MultiPython.Esp32.Control
import MultiPython.Esp32.Response

/-!
# The wake-up task

`multipython_wakeup_call_task` goes through the context list again and again, and resumes a
context if the first response in its queue says so. It only peeks: a suspended context does not
drain its queue, so a RESUME behind another response is not seen. The task catches no exception,
so a pass ends at the first one.
-/

namespace MultiPython.Esp32

open Context Logic List Option

variable {σ κ Obj : Type}

/-! ## The pass -/

section Calling

variable (core : κ)

/-- The body of the loop of `_multipython_control`; the result of the operation is not used. -/
def callIf (op : OpFunc) (targetId : Nat) (c : Controlled σ κ) (iter : Ref) :
    Option (Progress σ κ) := do
  let node ← c.memory.contexts iter
  if node.id = targetId then
    let context ← c.memory.mpContextByTid node.id
    let (memory, ended) ← op.call core c.memory node.id
    match ended with
    | .raised error => some (.halted { c with memory := memory } (.raised error))
    | .deleted =>
      some (.halted { c with memory := memory, applied := c.applied ++ [context] } .deleted)
    | .returned result =>
      if result = 0 then
        some (.going { c with memory := memory, applied := c.applied ++ [context] })
      else
        some (.going { c with memory := memory })
  else
    some (.going c)

/-- `_multipython_control`; `allocated` says whether the list that it returns finds memory. -/
def multipythonControlInternal (c : Controlled σ κ) (id : Nat) (op : Int)
    (useContext allocated : Bool) : Option (Controlled σ κ × ControlEnd) :=
  if op = 0 ∨ op = 4 then
    some (c, .notSupported)
  else if allocated = false then
    some (c, .noMemory)
  else do
    let targetId ← if useContext then (c.memory.contexts id).map MpContextNode.id else some id
    forContexts (callIf core (.ofControlOp op) targetId) addressSpace c c.memory.contextHead

variable (queues : Ref → MpResponseQueue (MpResponse Obj)) (allocates : Ref → Bool)

/-- The body of the loop of `multipython_wakeup_call_task`. -/
def wakeUpOne (c : Controlled σ κ) (citer : Ref) : Option (Progress σ κ) := do
  let _ ← c.memory.contexts citer
  match mpResponseQueuePeek (queues citer) with
  | (_ + 1, some response) =>
    if response.controlOp = 2 then
      match ← multipythonControlInternal core c citer response.controlOp true (allocates citer) with
      | (c, .returned _) => some (.going c)
      | (c, ended) => some (.halted c ended)
    else
      some (.going c)
  | _ => some (.going c)

/-- One pass of `multipython_wakeup_call_task` over the list. -/
def wakeUpPass (s : MpContexts σ κ) : Option (Controlled σ κ × ControlEnd) :=
  forContexts (wakeUpOne core queues allocates) addressSpace ⟨s, [], []⟩ s.contextHead

end Calling

/-! ## One context -/

/-- Nothing but the status of one context differs between two memories, and there it is not
suspended. -/
structure ResumedAt (s : MpContexts σ κ) (refs : List Ref) (ledger : Ref → List Ref)
    (before after : MpContexts σ κ) (ref : Ref) : Prop where
  sofar : Sofar s refs ledger after
  awake : cSusp (after.nodeOf ref).status = false
  others : ∀ other, other ≠ ref → after.nodeOf other = before.nodeOf other

section OneContext

variable {s : MpContexts σ κ} {refs : List Ref} {ledger : Ref → List Ref} {c : Controlled σ κ}
  {ref : Ref} {targetId : Nat}

theorem callIf_miss (core : κ) (op : OpFunc) (sofar : Sofar s refs ledger c.memory)
    (member : ref ∈ refs) (other : (s.nodeOf ref).id ≠ targetId) :
    callIf core op targetId c ref = some (.going c) := by
  simp [callIf, sofar.linked.loaded member, sofar.id_eq ref member, other]

variable (apart : IdsApart s refs) (core : κ) (sofar : Sofar s refs ledger c.memory)
include apart sofar

theorem callIf_refused (member : ref ∈ refs) (hit : (s.nodeOf ref).id = targetId)
    (refused : ¬Accepted s ref) :
    ∃ error, callIf core .resumeTask targetId c ref = some (.halted c (.raised error)) := by
  have now := sofar.apart apart
  have notTaken := mt (sofar.accepted_iff member).mp refused
  obtain ⟨context, error, found, called⟩ :=
    call_refused sofar.linked now member notTaken (show OpFunc.resumeTask ≠ .null by simp) core
  rw [← sofar.id_eq ref member] at hit
  exact ⟨error, by simp [callIf, sofar.linked.loaded member, ← hit, found, called]⟩

theorem callIf_resume (member : ref ∈ refs) (hit : (s.nodeOf ref).id = targetId)
    (accepted : Accepted s ref) :
    ∃ next, callIf core .resumeTask targetId c ref = some (.going next) ∧
      next.controlledContexts = c.controlledContexts ∧
      ResumedAt s refs ledger c.memory next.memory ref := by
  have now := sofar.apart apart
  have taken := (sofar.accepted_iff member).mpr accepted
  have found := byTid_of_apart sofar.linked now member taken.2
  have called := call_resume sofar.linked now member taken core
  rw [← sofar.id_eq ref member] at hit
  cases suspended : cSusp (c.memory.nodeOf ref).status with
  | true =>
    rw [suspended, if_pos rfl] at called
    have after := sofar.setStatus ref (withoutCSusp (c.memory.nodeOf ref).status)
    refine ⟨⟨c.memory.setContext ref
      { c.memory.nodeOf ref with status := withoutCSusp (c.memory.nodeOf ref).status },
      c.applied ++ [ref], c.controlledContexts⟩, by
      simp only [callIf, sofar.linked.loaded member, ← hit, found, called, bind_eq_bind,
        bind_some, if_true], rfl, after, ?_, fun other differs => ?_⟩
    · simp [MpContexts.setContext_nodeOf]
    · simp [MpContexts.setContext_nodeOf, differs]
  | false =>
    rw [suspended, if_neg (by simp)] at called
    exact ⟨c, by simp [callIf, sofar.linked.loaded member, ← hit, found, called], rfl,
      sofar, suspended, fun _ _ => rfl⟩

end OneContext

/-! ## The call for one context -/

variable {visits : List Ref}

section OneCall

variable {s : MpContexts σ κ} {refs : List Ref} {ledger : Ref → List Ref} {c : Controlled σ κ}
  {ref : Ref} {targetId : Nat}

theorem inTurn_callIf_miss (core : κ) (op : OpFunc) (sofar : Sofar s refs ledger c.memory)
    (listed : ∀ other ∈ visits, other ∈ refs)
    (differ : ∀ other ∈ visits, (s.nodeOf other).id ≠ targetId) :
    inTurn (callIf core op targetId) visits c = some (.going c) := by
  induction visits with
  | nil => rfl
  | cons first visits ih =>
    rw [inTurn, callIf_miss core op sofar (listed first mem_cons_self)
      (differ first mem_cons_self)]
    exact ih (fun other later => listed other (mem_cons_of_mem _ later))
      (fun other later => differ other (mem_cons_of_mem _ later))

variable (linked : WellLinked s refs ledger) (apart : IdsApart s refs) (core : κ)
  (sofar : Sofar s refs ledger c.memory)
include apart sofar

theorem inTurn_callIf_refused (listed : ∀ other ∈ visits, other ∈ refs)
    (refused : ∀ other ∈ visits, (s.nodeOf other).id = targetId → ¬Accepted s other)
    (hit : ∃ other ∈ visits, (s.nodeOf other).id = targetId) :
    ∃ error, inTurn (callIf core .resumeTask targetId) visits c =
      some (.halted c (.raised error)) := by
  induction visits with
  | nil => simp at hit
  | cons first visits ih =>
    have member := listed first mem_cons_self
    by_cases here : (s.nodeOf first).id = targetId
    · obtain ⟨error, halted⟩ := callIf_refused apart core sofar member here
        (refused first mem_cons_self here)
      exact ⟨error, by simp only [inTurn, halted, bind_eq_bind, bind_some]⟩
    · have later : ∃ other ∈ visits, (s.nodeOf other).id = targetId := by
        obtain ⟨other, visited, same⟩ := hit
        rcases mem_cons.mp visited with rfl | visited
        · exact absurd same here
        · exact ⟨other, visited, same⟩
      obtain ⟨error, halted⟩ := ih
        (fun other later => listed other (mem_cons_of_mem _ later))
        (fun other later => refused other (mem_cons_of_mem _ later)) later
      refine ⟨error, ?_⟩
      rw [inTurn, callIf_miss core .resumeTask sofar member here]
      exact halted

include linked

theorem inTurn_callIf_resume (member : ref ∈ refs) (accepted : Accepted s ref) :
    ∃ next, inTurn (callIf core .resumeTask (s.nodeOf ref).id) refs c = some (.going next) ∧
      ResumedAt s refs ledger c.memory next.memory ref := by
  have differ : ∀ other ∈ refs, other ≠ ref → (s.nodeOf other).id ≠ (s.nodeOf ref).id :=
    fun other listed differs same => differs (apart ref member other listed accepted.2 same.symm).symm
  obtain ⟨early, late, split⟩ := append_of_mem member
  have distinct := linked.distinct
  rw [split, nodup_append] at distinct
  obtain ⟨_, lateDistinct, disjoint⟩ := distinct
  have inEarly : ∀ other ∈ early, other ∈ refs := fun other earlier => by simp [split, earlier]
  have inLate : ∀ other ∈ late, other ∈ refs := fun other later => by simp [split, later]
  obtain ⟨next, ran, _, resumed⟩ := callIf_resume apart core sofar member rfl accepted
  refine ⟨next, ?_, resumed⟩
  have before := inTurn_callIf_miss core .resumeTask sofar inEarly
    (fun other earlier => differ other (inEarly other earlier)
      (disjoint other earlier ref mem_cons_self))
  have behind := inTurn_callIf_miss core .resumeTask resumed.sofar inLate
    (fun other later => differ other (inLate other later) fun same =>
      (nodup_cons.mp lateDistinct).1 (same ▸ later))
  conv_lhs => rw [split]
  simp only [inTurn_append, before, bind_some, inTurn, ran, bind_eq_bind, behind]

theorem internalControl_eq (member : ref ∈ refs) (allocated : Bool) :
    multipythonControlInternal core c ref 2 true allocated =
      if allocated then
        (inTurn (callIf core .resumeTask (s.nodeOf ref).id) refs c).map Progress.finish
      else some (c, .noMemory) := by
  cases allocated with
  | false => rfl
  | true =>
    have keeps : ∀ c next, Sofar s refs ledger c.memory → ∀ other ∈ refs,
        callIf core .resumeTask (s.nodeOf ref).id c other = some (.going next) →
          Sofar s refs ledger next.memory := by
      intro c next sofar other listed going
      by_cases same : (s.nodeOf other).id = (s.nodeOf ref).id
      · by_cases accepted : Accepted s other
        · obtain ⟨after, ran, _, resumed⟩ :=
            callIf_resume apart core sofar listed same accepted
          rw [ran] at going
          cases going
          exact resumed.sofar
        · obtain ⟨error, halted⟩ := callIf_refused apart core sofar listed same accepted
          rw [halted] at going
          cases going
      · rw [callIf_miss core .resumeTask sofar listed same] at going
        cases going
        exact sofar
    have looped := forContexts_eq (nil_append refs).symm keeps sofar linked.length_lt
    rw [← linked.chain.start_eq] at looped
    simp only [multipythonControlInternal, sofar.linked.loaded member, sofar.head,
      OpFunc.ofControlOp]
    simpa [sofar.id_eq ref member] using looped

end OneCall

/-! ## The whole pass -/

/-- The first response in the queue of a context is a RESUME. -/
def ResumeFirst (queues : Ref → MpResponseQueue (MpResponse Obj)) (ref : Ref) : Prop :=
  ∃ response ∈ (queues ref).contents.head?, response.controlOp = 2

/-- A RESUME waits somewhere in the queue of a context. -/
def ResumeWaits (queues : Ref → MpResponseQueue (MpResponse Obj)) (ref : Ref) : Prop :=
  ∃ response ∈ (queues ref).contents, response.controlOp = 2

/-- The pass goes through the whole list, and after it no context is suspended that was to be
resumed. -/
def WakesAll (core : κ) (queues : Ref → MpResponseQueue (MpResponse Obj)) (allocates : Ref → Bool)
    (s : MpContexts σ κ) (refs : List Ref) : Prop :=
  ∃ after controlled, wakeUpPass core queues allocates s = some (after, .returned controlled) ∧
    ∀ ref ∈ refs, ref ≠ s.contextHead → cSusp (s.nodeOf ref).status = true →
      ResumeWaits queues ref → cSusp (after.memory.nodeOf ref).status = false

/-- The call for a context raises no exception. -/
def CallSucceeds (allocates : Ref → Bool) (s : MpContexts σ κ) (ref : Ref) : Prop :=
  Accepted s ref ∧ allocates ref = true

/-- When the pass wakes all. -/
structure WakeUpFits (queues : Ref → MpResponseQueue (MpResponse Obj)) (allocates : Ref → Bool)
    (s : MpContexts σ κ) (refs : List Ref) : Prop where
  succeeds : ∀ ref ∈ refs, ResumeFirst queues ref → CallSucceeds allocates s ref
  first : ∀ ref ∈ refs, ref ≠ s.contextHead → cSusp (s.nodeOf ref).status = true →
    ResumeWaits queues ref → ResumeFirst queues ref

section Pass

variable {s : MpContexts σ κ} {refs : List Ref} {ledger : Ref → List Ref} {c : Controlled σ κ}
  {ref : Ref} {queues : Ref → MpResponseQueue (MpResponse Obj)} {allocates : Ref → Bool}

theorem wakeUpOne_other (core : κ) (sofar : Sofar s refs ledger c.memory) (member : ref ∈ refs)
    (inRange : (queues ref).InRange) (other : ¬ResumeFirst queues ref) :
    wakeUpOne core queues allocates c ref = some (.going c) := by
  have peeked := mpResponseQueuePeek_eq inRange.holds
  simp only [wakeUpOne, sofar.linked.loaded member, bind_eq_bind, bind_some, peeked]
  cases contents : (queues ref).contents with
  | nil => rfl
  | cons response later =>
    have notResume : response.controlOp ≠ 2 := fun resume =>
      other ⟨response, by simp [contents], resume⟩
    simp [notResume]

section Visit

variable (core : κ) (sofar : Sofar s refs ledger c.memory) (member : ref ∈ refs)
  (inRange : (queues ref).InRange) (first : ResumeFirst queues ref)
include sofar member inRange first

theorem wakeUpOne_first : wakeUpOne core queues allocates c ref =
    (multipythonControlInternal core c ref 2 true (allocates ref)).bind fun result =>
      match result with
      | (c, .returned _) => some (.going c)
      | (c, ended) => some (.halted c ended) := by
  obtain ⟨response, isFirst, resume⟩ := first
  have peeked := mpResponseQueuePeek_eq inRange.holds
  cases contents : (queues ref).contents with
  | nil => simp [contents] at isFirst
  | cons oldest later =>
    obtain rfl : oldest = response := by simpa [contents] using isFirst
    have available : min 1 (oldest :: later).length = 1 := by simp
    rw [contents, available, List.head?_cons] at peeked
    simp only [wakeUpOne, sofar.linked.loaded member, bind_eq_bind, bind_some,
      peeked, resume, if_true]
    rfl

variable (linked : WellLinked s refs ledger) (apart : IdsApart s refs)
include linked apart

theorem wakeUpOne_succeeds (succeeds : CallSucceeds allocates s ref) :
    ∃ next, wakeUpOne core queues allocates c ref = some (.going next) ∧
      ResumedAt s refs ledger c.memory next.memory ref := by
  obtain ⟨next, ran, resumed⟩ := inTurn_callIf_resume linked apart core sofar member succeeds.1
  refine ⟨next, ?_, resumed⟩
  rw [wakeUpOne_first core sofar member inRange first,
    internalControl_eq linked apart core sofar member, succeeds.2, ran]
  rfl

theorem wakeUpOne_fails (fails : ¬CallSucceeds allocates s ref) :
    ∃ ended, wakeUpOne core queues allocates c ref = some (.halted c ended) ∧
      ∀ controlled, ended ≠ .returned controlled := by
  rw [wakeUpOne_first core sofar member inRange first,
    internalControl_eq linked apart core sofar member]
  cases allocated : allocates ref with
  | false => exact ⟨.noMemory, rfl, by simp⟩
  | true =>
    have refused : ¬Accepted s ref := fun accepted => fails ⟨accepted, allocated⟩
    have allRefused : ∀ other ∈ refs, (s.nodeOf other).id = (s.nodeOf ref).id →
        ¬Accepted s other := by
      intro other listed same accepted
      have both := apart other listed ref member accepted.2 same
      exact refused (both ▸ accepted)
    obtain ⟨error, halted⟩ := inTurn_callIf_refused apart core sofar (fun _ listed => listed)
      allRefused ⟨ref, member, rfl⟩
    refine ⟨.raised error, ?_, by simp⟩
    rw [halted]
    rfl

end Visit

/-- What the pass over a part of the list has done. -/
structure PassedOver (s : MpContexts σ κ) (refs : List Ref) (ledger : Ref → List Ref)
    (queues : Ref → MpResponseQueue (MpResponse Obj)) (visited : List Ref)
    (before after : MpContexts σ κ) : Prop where
  sofar : Sofar s refs ledger after
  awake : ∀ ref ∈ visited, ResumeFirst queues ref → cSusp (after.nodeOf ref).status = false
  others : ∀ ref, ¬(ref ∈ visited ∧ ResumeFirst queues ref) → after.nodeOf ref = before.nodeOf ref

variable (linked : WellLinked s refs ledger) (apart : IdsApart s refs) (core : κ)
include linked apart

section

variable (inRange : ∀ ref ∈ refs, (queues ref).InRange)

include inRange

theorem inTurn_wakeUpOne (listed : ∀ ref ∈ visits, ref ∈ refs) (distinct : visits.Nodup)
    (sofar : Sofar s refs ledger c.memory)
    (succeeds : ∀ ref ∈ visits, ResumeFirst queues ref → CallSucceeds allocates s ref) :
    ∃ next, inTurn (wakeUpOne core queues allocates) visits c = some (.going next) ∧
      PassedOver s refs ledger queues visits c.memory next.memory := by
  induction visits generalizing c with
  | nil => exact ⟨c, rfl, sofar, by simp, fun _ _ => rfl⟩
  | cons ref visits ih =>
    have member := listed ref mem_cons_self
    have laterListed : ∀ other ∈ visits, other ∈ refs := fun other later =>
      listed other (mem_cons_of_mem _ later)
    obtain ⟨absent, laterDistinct⟩ := nodup_cons.mp distinct
    have laterSucceeds : ∀ other ∈ visits, ResumeFirst queues other →
        CallSucceeds allocates s other := fun other later =>
      succeeds other (mem_cons_of_mem _ later)
    by_cases first : ResumeFirst queues ref
    · obtain ⟨middle, ran, resumed⟩ := wakeUpOne_succeeds core sofar member
        (inRange ref member) first linked apart (succeeds ref mem_cons_self first)
      obtain ⟨next, ranLater, passed⟩ :=
        ih laterListed laterDistinct resumed.sofar laterSucceeds
      have kept : next.memory.nodeOf ref = middle.memory.nodeOf ref :=
        passed.others ref (fun visited => absent visited.1)
      refine ⟨next, ?_, passed.sofar, ?_, fun other outside => ?_⟩
      · simp only [inTurn, ran, bind_eq_bind, bind_some, ranLater]
      · intro other visited firstThere
        rcases mem_cons.mp visited with rfl | later
        · rw [kept]
          exact resumed.awake
        · exact passed.awake other later firstThere
      · have differs : other ≠ ref := by
          rintro rfl
          exact outside ⟨mem_cons_self, first⟩
        rw [passed.others other (fun visited =>
          outside ⟨mem_cons_of_mem _ visited.1, visited.2⟩), resumed.others other differs]
    · obtain ⟨next, ranLater, passed⟩ :=
        ih laterListed laterDistinct sofar laterSucceeds
      refine ⟨next, ?_, passed.sofar, ?_, fun other outside => ?_⟩
      · rw [inTurn, wakeUpOne_other core sofar member (inRange ref member) first]
        exact ranLater
      · intro other visited firstThere
        rcases mem_cons.mp visited with rfl | later
        · exact absurd firstThere first
        · exact passed.awake other later firstThere
      · exact passed.others other (fun visited =>
          outside ⟨mem_cons_of_mem _ visited.1, visited.2⟩)

/-- The first call that fails ends the pass. -/
theorem inTurn_wakeUpOne_fails (listed : ∀ ref ∈ visits, ref ∈ refs)
    (sofar : Sofar s refs ledger c.memory)
    (fails : ∃ ref ∈ visits, ResumeFirst queues ref ∧ ¬CallSucceeds allocates s ref) :
    ∃ after ended, inTurn (wakeUpOne core queues allocates) visits c =
      some (.halted after ended) ∧ ∀ controlled, ended ≠ .returned controlled := by
  induction visits generalizing c with
  | nil => simp at fails
  | cons ref visits ih =>
    have member := listed ref mem_cons_self
    have goesOn {next : Controlled σ κ}
        (ran : wakeUpOne core queues allocates c ref = some (.going next))
        (now : Sofar s refs ledger next.memory)
        (fine : ResumeFirst queues ref → CallSucceeds allocates s ref) :
        ∃ after ended, inTurn (wakeUpOne core queues allocates) (ref :: visits) c =
          some (.halted after ended) ∧ ∀ controlled, ended ≠ .returned controlled := by
      have later : ∃ ref ∈ visits, ResumeFirst queues ref ∧ ¬CallSucceeds allocates s ref := by
        obtain ⟨other, visited, first, failed⟩ := fails
        rcases mem_cons.mp visited with rfl | visited
        · exact absurd (fine first) failed
        · exact ⟨other, visited, first, failed⟩
      obtain ⟨after, ended, halted, notReturned⟩ := ih
        (fun other later => listed other (mem_cons_of_mem _ later)) now later
      refine ⟨after, ended, ?_, notReturned⟩
      simp only [inTurn, ran, bind_eq_bind, bind_some, halted]
    by_cases first : ResumeFirst queues ref
    · by_cases succeeds : CallSucceeds allocates s ref
      · obtain ⟨next, ran, resumed⟩ := wakeUpOne_succeeds core sofar member (inRange ref member)
          first linked apart succeeds
        exact goesOn ran resumed.sofar fun _ => succeeds
      · obtain ⟨ended, halted, notReturned⟩ := wakeUpOne_fails core sofar member
          (inRange ref member) first linked apart succeeds
        refine ⟨c, ended, ?_, notReturned⟩
        simp only [inTurn, halted, bind_eq_bind, bind_some]
    · exact goesOn (wakeUpOne_other core sofar member (inRange ref member) first) sofar
        fun isFirst => absurd isFirst first

theorem wakeUpPass_eq :
    wakeUpPass core queues allocates s =
      (inTurn (wakeUpOne core queues allocates) refs ⟨s, [], []⟩).map Progress.finish := by
  have keeps : ∀ c next, Sofar s refs ledger c.memory → ∀ ref ∈ refs,
      wakeUpOne core queues allocates c ref = some (.going next) →
        Sofar s refs ledger next.memory := by
    intro c next sofar ref member going
    by_cases first : ResumeFirst queues ref
    · by_cases succeeds : CallSucceeds allocates s ref
      · obtain ⟨after, ran, resumed⟩ := wakeUpOne_succeeds core sofar member (inRange ref member)
          first linked apart succeeds
        rw [ran] at going
        cases going
        exact resumed.sofar
      · obtain ⟨ended, halted, _⟩ := wakeUpOne_fails core sofar member (inRange ref member) first
          linked apart succeeds
        rw [halted] at going
        cases going
    · rw [wakeUpOne_other core sofar member (inRange ref member) first] at going
      cases going
      exact sofar
  rw [wakeUpPass, linked.chain.start_eq]
  exact forContexts_eq (nil_append refs).symm keeps (c := ⟨s, [], []⟩) (.refl linked)
    linked.length_lt

/-- For every context list and all contents of the queues, a pass wakes every suspended context
that a RESUME waits for if and only if that RESUME comes first and no call of the pass fails. -/
theorem wakeUpPass_wakesAll_iff :
    WakesAll core queues allocates s refs ↔ WakeUpFits queues allocates s refs := by
  have ran : wakeUpPass core queues allocates s =
      (inTurn (wakeUpOne core queues allocates) refs ⟨s, [], []⟩).map Progress.finish :=
    wakeUpPass_eq linked apart core inRange
  by_cases succeeds : ∀ ref ∈ refs, ResumeFirst queues ref → CallSucceeds allocates s ref
  · obtain ⟨next, going, passed⟩ := inTurn_wakeUpOne linked apart core inRange
      (fun _ listed => listed) linked.distinct (c := ⟨s, [], []⟩) (.refl linked) succeeds
    rw [going, map_some, Progress.finish] at ran
    constructor
    · rintro ⟨after, controlled, ended, woken⟩
      rw [ran, some.injEq, Prod.mk.injEq] at ended
      obtain ⟨rfl, _⟩ := ended
      refine ⟨succeeds, fun ref member notHead suspended waits => ?_⟩
      by_contra notFirst
      have awake := woken ref member notHead suspended waits
      rw [passed.others ref (fun visited => notFirst visited.2), suspended] at awake
      cases awake
    · intro fits
      refine ⟨next, next.controlledContexts, ran, fun ref member notHead suspended waits => ?_⟩
      exact passed.awake ref member (fits.first ref member notHead suspended waits)
  · have fails : ∃ ref ∈ refs, ResumeFirst queues ref ∧ ¬CallSucceeds allocates s ref := by
      simpa only [not_forall, exists_prop] using succeeds
    obtain ⟨after, ended, halted, notReturned⟩ := inTurn_wakeUpOne_fails linked apart core inRange
      (fun _ listed => listed) (c := ⟨s, [], []⟩) (.refl linked) fails
    rw [halted, map_some, Progress.finish] at ran
    refine iff_of_false ?_ (fun fits => succeeds fits.succeeds)
    rintro ⟨_, controlled, returned, _⟩
    rw [ran, some.injEq, Prod.mk.injEq] at returned
    exact notReturned controlled returned.2

end

end Pass

/-! ## A context that sleeps -/

/-- The second context is suspended. -/
def oneAsleep : MpContexts Unit Unit :=
  twoContexts.setContext 12 { twoContexts.nodeOf 12 with status := 1 }

theorem oneAsleep_linked : WellLinked oneAsleep [4, 12] fun _ => [] :=
  twoContexts_linked.setContext rfl rfl rfl

theorem oneAsleep_apart : IdsApart oneAsleep [4, 12] := by
  unfold IdsApart
  decide

/-- The second context was sent a response without a control operation and a RESUME; the first
`read` of them have been read. -/
def sentTwo (read : Nat) (ref : Ref) : MpResponseQueue (MpResponse Unit) :=
  if ref = 12 then ⟨fun index => if index = 0 then ⟨0, ()⟩ else ⟨2, ()⟩, read, 2⟩
  else ⟨fun _ => ⟨0, ()⟩, 0, 0⟩

theorem sentTwo_inRange {read : Nat} (few : read < 256) :
    ∀ ref ∈ [4, 12], (sentTwo read ref).InRange := by
  simp [sentTwo, MpResponseQueue.InRange, few, mpResponseQueueSize]

theorem wakeUpPass_wakesAll_first :
    WakesAll () (sentTwo 1) (fun _ => true) oneAsleep [4, 12] := by
  refine (wakeUpPass_wakesAll_iff oneAsleep_linked oneAsleep_apart ()
    (sentTwo_inRange (by decide))).mpr ⟨fun ref member first => ?_, fun ref member notHead _ _ => ?_⟩
  · rcases mem_pair.mp member with rfl | rfl
    · obtain ⟨response, isFirst, _⟩ := first
      cases isFirst
    · exact ⟨by decide, rfl⟩
  · rcases mem_pair.mp member with rfl | rfl
    · exact absurd rfl notHead
    · exact ⟨⟨2, ()⟩, rfl, rfl⟩

/-- A RESUME behind another response does not wake the context. -/
theorem wakeUpPass_leaves_asleep :
    ¬ WakesAll () (sentTwo 0) (fun _ => true) oneAsleep [4, 12] := by
  rintro ⟨after, controlled, ran, woken⟩
  have awake := woken 12 (by simp) (by decide) (by decide)
    ⟨⟨2, ()⟩, mem_of_getElem? (i := 1) rfl, rfl⟩
  have asleep : (wakeUpPass () (sentTwo 0) (fun _ => true) oneAsleep).map
      (fun result => cSusp (result.1.memory.nodeOf 12).status) = some true := by
    decide
  rw [ran, map_some, some.injEq, awake] at asleep
  cases asleep

end MultiPython.Esp32
