import MultiPython.Esp32.Runtime

/-!
# Controlling contexts

`multipython_control` and the operations that it applies. Beside the memory, `Controlled` keeps
which contexts an operation has been applied to. A function returns `none` if it reads a node
that is not there, or calls a function that is `NULL`. A task that deletes itself does not
come back from the call.
-/

namespace MultiPython.Esp32

open Context Logic List Option

variable {σ κ : Type}

/-! ## The operations -/

/-- `status & MP_CSUSP`, the lowest bit. -/
def cSusp (status : Int) : Bool := status % 2 == 1

/-- `status | MP_CSUSP`. -/
def withCSusp (status : Int) : Int := status - status % 2 + 1

/-- `status & ~MP_CSUSP`. -/
def withoutCSusp (status : Int) : Int := status - status % 2

@[simp] theorem cSusp_withoutCSusp (status : Int) : cSusp (withoutCSusp status) = false := by
  rw [cSusp, withoutCSusp, beq_eq_false_iff_ne]
  omega

/-- `multipython_suspend_task`: its return value, or the exception. -/
def multipythonSuspendTask (s : MpContexts σ κ) (taskID : Nat) :
    Option (MpContexts σ κ × Except Raised Int) := do
  let context ← s.mpContextByTid taskID
  if context = s.contextHead then
    some (s, .error .eacces)
  else if taskID = 0 ∨ context = 0 then
    some (s, .error .enxio)
  else
    let node ← s.contexts context
    some (s.setContext context { node with status := withCSusp node.status }, .ok 0)

def multipythonResumeTask (s : MpContexts σ κ) (taskID : Nat) :
    Option (MpContexts σ κ × Except Raised Int) := do
  let context ← s.mpContextByTid taskID
  if context = s.contextHead then
    some (s, .error .eacces)
  else if taskID = 0 ∨ context = 0 then
    some (s, .error .enxio)
  else
    let node ← s.contexts context
    if cSusp node.status = false then
      some (s, .ok (-1))
    else
      some (s.setContext context { node with status := withoutCSusp node.status }, .ok 0)

/-- `op_func`; the last one is `NULL`. -/
inductive OpFunc where
  | endTask
  | resumeTask
  | suspendTask
  | null
deriving DecidableEq, Repr

/-- The operation for a value of `multipython_op_e`. -/
def OpFunc.ofControlOp (op : Int) : OpFunc :=
  if op = 1 then .endTask
  else if op = 2 then .resumeTask
  else if op = 3 then .suspendTask
  else .null

/-- How a call of `op_func` ends. -/
inductive OpEnd where
  | raised (error : Raised)
  /-- `vTaskDelete` of the task that makes the call. -/
  | deleted
  | returned (result : Int)
deriving DecidableEq, Repr

/-- A call of `op_func` by the task that runs on a core. -/
def OpFunc.call (op : OpFunc) (core : κ) (s : MpContexts σ κ) (taskID : Nat) :
    Option (MpContexts σ κ × OpEnd) :=
  match op with
  | .endTask => do
      match ← multipythonEndTask s taskID with
      | (s, .error error) => some (s, .raised error)
      | (s, .ok _) => some (s, if s.currentTIDs core = taskID then .deleted else .returned 0)
  | .resumeTask => do
      match ← multipythonResumeTask s taskID with
      | (s, .error error) => some (s, .raised error)
      | (s, .ok result) => some (s, .returned result)
  | .suspendTask => do
      match ← multipythonSuspendTask s taskID with
      | (s, .error error) => some (s, .raised error)
      | (s, .ok result) => some (s, .returned result)
  | .null => none

/-! ## The call -/

/-- The argument `ids`; an element of a list is nothing if it is no integer. -/
inductive IdsArg where
  | none
  | int (id : Int)
  | list (items : List (Option Int))
  | other
deriving DecidableEq, Repr

/-- The arguments of `multipython.control`: the number of those by position, and the parsed
values. -/
structure ControlArgs where
  nArgs : Nat
  ids : IdsArg
  op : Int
  useContext : Bool
deriving DecidableEq, Repr

/-- How `multipython_control` ends. -/
inductive ControlEnd where
  | returned (controlledContexts : List Int)
  | raised (error : Raised)
  /-- The exception "Operation not supported". -/
  | notSupported
  /-- The exception `MemoryError`. -/
  | noMemory
  /-- The task that makes the call is deleted. -/
  | deleted
deriving DecidableEq, Repr

/-- `mp_obj_new_int` of an id. -/
def idObj (id : Nat) : Int := Int.bmod id (2 ^ 32)

/-- `(uint32_t)mp_obj_int_get_truncated(id)`. -/
def targetOf (id : Int) : Nat := (id % 2 ^ 32).toNat

/-- The memory, the contexts that the operation has been applied to, in order, and
`controlled_contexts`. -/
structure Controlled (σ κ : Type) where
  memory : MpContexts σ κ
  applied : List Ref
  controlledContexts : List Int

/-- A part of the call goes on, or the call is over. -/
inductive Progress (σ κ : Type) where
  | going (c : Controlled σ κ)
  | halted (c : Controlled σ κ) (ended : ControlEnd)

section Calling

variable (op : OpFunc) (core : κ)

/-- Apply the operation to the context of an iterator, and append its id if the operation returns 0. -/
def applyTo (c : Controlled σ κ) (iter : Ref) : Option (Progress σ κ) := do
  let node ← c.memory.contexts iter
  let context ← c.memory.mpContextByTid node.id
  let (memory, ended) ← op.call core c.memory node.id
  match ended with
  | .raised error => some (.halted { c with memory := memory } (.raised error))
  | .deleted =>
    some (.halted { c with memory := memory, applied := c.applied ++ [context] } .deleted)
  | .returned result =>
    if result = 0 then
      let node ← memory.contexts iter
      some (.going ⟨memory, c.applied ++ [context], c.controlledContexts ++ [idObj node.id]⟩)
    else
      some (.going { c with memory := memory })

/-- Apply the operation if the context has this id. -/
def applyIf (targetId : Nat) (c : Controlled σ κ) (iter : Ref) : Option (Progress σ κ) := do
  let node ← c.memory.contexts iter
  if node.id = targetId then applyTo op core c iter else some (.going c)

/-- `target_id`; with `use_context` it is read from the node that the id points to. -/
def readTarget (useContext : Bool) (s : MpContexts σ κ) (id : Int) : Option Nat :=
  if useContext then (s.contexts (targetOf id)).map MpContextNode.id else some (targetOf id)

/-- The loop over the items of a list. -/
def applyItems (useContext : Bool) : List Int → Controlled σ κ → Ref → Option (Progress σ κ)
  | [], c, _ => some (.going c)
  | item :: items, c, iter => do
      let targetId ← readTarget useContext c.memory item
      match ← applyIf op core targetId c iter with
      | .going c => applyItems useContext items c iter
      | .halted c ended => some (.halted c ended)

/-- A loop over the contexts from an iterator on. -/
def forContexts (body : Controlled σ κ → Ref → Option (Progress σ κ)) :
    Nat → Controlled σ κ → Ref → Option (Controlled σ κ × ControlEnd)
  | 0, _, _ => none
  | fuel + 1, c, iter =>
    if iter = 0 then
      some (c, .returned c.controlledContexts)
    else do
      match ← body c iter with
      | .halted c ended => some (c, ended)
      | .going c => do
          let node ← c.memory.contexts iter
          forContexts body fuel c node.next

/-- `multipython_control`, once the operation is known. -/
def controlWith (s : MpContexts σ κ) (args : ControlArgs) : Option (Controlled σ κ × ControlEnd) :=
  let c : Controlled σ κ := ⟨s, [], []⟩
  if args.nArgs = 0 then do
    let head ← s.contexts s.contextHead
    forContexts (applyTo op core) addressSpace c head.next
  else
    match args.ids with
    | .int id => do
        let targetId ← readTarget args.useContext s id
        forContexts (applyIf op core targetId) addressSpace c s.contextHead
    | .list items =>
      match items.mapM id with
      | none => some (c, .raised .typeError)
      | some items =>
        forContexts (applyItems op core args.useContext items) addressSpace c s.contextHead
    | .none => do
        let node ← s.contexts (s.activeContexts core)
        let context ← s.mpContextByTid node.id
        let (memory, ended) ← op.call core s node.id
        match ended with
        | .raised error => some ({ c with memory := memory }, .raised error)
        | .deleted => some ({ c with memory := memory, applied := [context] }, .deleted)
        | .returned result =>
          -- The id is read through the iterator, which is `NULL` here.
          if result = 0 then none
          else some ({ c with memory := memory }, .returned [])
    | .other => some (c, .raised .typeError)

end Calling

/-- `multipython_control` by the task that runs on a core. -/
def multipythonControl (core : κ) (s : MpContexts σ κ) (args : ControlArgs) :
    Option (Controlled σ κ × ControlEnd) :=
  if args.op = 0 ∨ args.op = 4 then some (⟨s, [], []⟩, .notSupported)
  else controlWith (.ofControlOp args.op) core s args

/-! ## One operation -/

variable {s : MpContexts σ κ} {refs : List Ref} {ledger : Ref → List Ref}

/-- No two listed contexts have the same id, other than 0. -/
def IdsApart (s : MpContexts σ κ) (refs : List Ref) : Prop :=
  ∀ ref ∈ refs, ∀ other ∈ refs, (s.nodeOf ref).id ≠ 0 → (s.nodeOf ref).id = (s.nodeOf other).id →
    ref = other

/-- The operations take the context: it is not the default one and its task is known. -/
def Accepted (s : MpContexts σ κ) (ref : Ref) : Prop := ref ≠ s.contextHead ∧ (s.nodeOf ref).id ≠ 0

instance (s : MpContexts σ κ) (ref : Ref) : Decidable (Accepted s ref) :=
  inferInstanceAs (Decidable (_ ∧ _))

variable {op : OpFunc}

section OneOperation

variable (linked : WellLinked s refs ledger) (apart : IdsApart s refs) {ref : Ref}
  (member : ref ∈ refs)
include linked apart member

theorem byTid_of_apart (identified : (s.nodeOf ref).id ≠ 0) :
    s.mpContextByTid (s.nodeOf ref).id = some ref := by
  rcases linked.byTid_cases (s.nodeOf ref).id with ⟨_, none_⟩ | ⟨other, listed, found, same⟩
  · exact absurd rfl (none_ ref member)
  · rw [found, apart ref member other listed identified same.symm]

/-- Every operation refuses the same contexts. -/
theorem call_refused (refused : ¬Accepted s ref) (known : op ≠ .null) (core : κ) :
    ∃ context error, s.mpContextByTid (s.nodeOf ref).id = some context ∧
      op.call core s (s.nodeOf ref).id = some (s, .raised error) := by
  by_cases noTask : (s.nodeOf ref).id = 0
  · obtain ⟨context, found⟩ : ∃ context, s.mpContextByTid 0 = some context := by
      rcases linked.byTid_cases 0 with ⟨found, _⟩ | ⟨context, _, found, _⟩
      · exact ⟨0, found⟩
      · exact ⟨context, found⟩
    rw [noTask]
    refine ⟨context, if context = s.contextHead then .eacces else .enxio, found, ?_⟩
    by_cases isHead : context = s.contextHead
    · cases op with
      | endTask => simp [OpFunc.call, multipythonEndTask, found, isHead]
      | resumeTask => simp [OpFunc.call, multipythonResumeTask, found, isHead]
      | suspendTask => simp [OpFunc.call, multipythonSuspendTask, found, isHead]
      | null => exact absurd rfl known
    · cases op with
      | endTask => simp [OpFunc.call, multipythonEndTask, found, isHead]
      | resumeTask => simp [OpFunc.call, multipythonResumeTask, found, isHead]
      | suspendTask => simp [OpFunc.call, multipythonSuspendTask, found, isHead]
      | null => exact absurd rfl known
  · have found := byTid_of_apart linked apart member noTask
    have isHead : ref = s.contextHead := by
      by_contra other
      exact refused ⟨other, noTask⟩
    refine ⟨ref, .eacces, found, ?_⟩
    cases op with
    | endTask => simp [OpFunc.call, multipythonEndTask, found, ← isHead]
    | resumeTask => simp [OpFunc.call, multipythonResumeTask, found, ← isHead]
    | suspendTask => simp [OpFunc.call, multipythonSuspendTask, found, ← isHead]
    | null => exact absurd rfl known

theorem call_suspend (accepted : Accepted s ref) (core : κ) :
    OpFunc.suspendTask.call core s (s.nodeOf ref).id =
      some (s.setContext ref { s.nodeOf ref with status := withCSusp (s.nodeOf ref).status },
        .returned 0) := by
  have found := byTid_of_apart linked apart member accepted.2
  simp [OpFunc.call, multipythonSuspendTask, found, accepted.1, accepted.2,
    linked.chain.ne_zero ref member, linked.loaded member]

theorem call_resume (accepted : Accepted s ref) (core : κ) :
    OpFunc.resumeTask.call core s (s.nodeOf ref).id =
      if cSusp (s.nodeOf ref).status then
        some (s.setContext ref { s.nodeOf ref with status := withoutCSusp (s.nodeOf ref).status },
          .returned 0)
      else some (s, .returned (-1)) := by
  have found := byTid_of_apart linked apart member accepted.2
  cases suspended : cSusp (s.nodeOf ref).status <;>
    simp [OpFunc.call, multipythonResumeTask, found, accepted.1, accepted.2,
      linked.chain.ne_zero ref member, linked.loaded member, suspended]

theorem call_end (accepted : Accepted s ref) (core : κ) :
    ∃ after, OpFunc.endTask.call core s (s.nodeOf ref).id =
        some (after, if s.currentTIDs core = (s.nodeOf ref).id then .deleted else .returned 0) ∧
      after.contexts ref = none := by
  have found := byTid_of_apart linked apart member accepted.2
  rcases multipythonEndTask_spec linked (s.nodeOf ref).id with
    ⟨_, _, noTask | isHead | isNull⟩ | ⟨_, context, _, _, byTid, _, after, ran, removed⟩
  · exact absurd noTask accepted.2
  · rw [found] at isHead
    exact absurd (some.inj isHead) accepted.1
  · rw [found] at isNull
    exact absurd (some.inj isNull) (linked.chain.ne_zero ref member)
  · rw [found] at byTid
    obtain rfl := some.inj byTid
    exact ⟨after, by simp [OpFunc.call, ran, removed.globals.currentTIDs], removed.freed⟩

end OneOperation

/-! ## The contexts while an operation is applied -/

/-- Nothing but statuses has changed. -/
structure Sofar (s : MpContexts σ κ) (refs : List Ref) (ledger : Ref → List Ref)
    (now : MpContexts σ κ) : Prop where
  linked : WellLinked now refs ledger
  id_eq : ∀ ref ∈ refs, (now.nodeOf ref).id = (s.nodeOf ref).id
  head : now.contextHead = s.contextHead
  tasks : now.currentTIDs = s.currentTIDs

namespace Sofar

variable {now : MpContexts σ κ} {ref : Ref}

theorem refl (linked : WellLinked s refs ledger) : Sofar s refs ledger s :=
  ⟨linked, fun _ _ => rfl, rfl, rfl⟩

theorem apart (sofar : Sofar s refs ledger now) (apart : IdsApart s refs) : IdsApart now refs := by
  intro one oneListed other otherListed identified same
  rw [sofar.id_eq one oneListed] at identified same
  rw [sofar.id_eq other otherListed] at same
  exact apart one oneListed other otherListed identified same

theorem accepted_iff (sofar : Sofar s refs ledger now) (member : ref ∈ refs) :
    Accepted now ref ↔ Accepted s ref := by
  rw [Accepted, Accepted, sofar.head, sofar.id_eq ref member]

theorem setStatus (sofar : Sofar s refs ledger now) (ref : Ref) (status : Int) :
    Sofar s refs ledger (now.setContext ref { now.nodeOf ref with status := status }) := by
  refine ⟨sofar.linked.setContext rfl rfl rfl, fun other member => ?_, sofar.head, sofar.tasks⟩
  rw [MpContexts.setContext_nodeOf]
  split
  · next same =>
      subst same
      exact sofar.id_eq other member
  · exact sofar.id_eq other member

end Sofar

section Applying

variable (apart : IdsApart s refs) {c : Controlled σ κ} {ref : Ref}
include apart

section

variable (sofar : Sofar s refs ledger c.memory) (member : ref ∈ refs)

include sofar member

theorem applyTo_refused (refused : ¬Accepted s ref) (known : op ≠ .null) (core : κ) :
    ∃ error, applyTo op core c ref = some (.halted c (.raised error)) := by
  have now := sofar.apart apart
  obtain ⟨context, error, found, called⟩ := call_refused sofar.linked now member
    (fun accepted => refused ((sofar.accepted_iff member).mp accepted)) known core
  exact ⟨error, by simp [applyTo, sofar.linked.loaded member, found, called]⟩

theorem applyTo_suspend (accepted : Accepted s ref) (core : κ) :
    ∃ after, applyTo .suspendTask core c ref = some (.going ⟨after, c.applied ++ [ref],
        c.controlledContexts ++ [idObj (s.nodeOf ref).id]⟩) ∧ Sofar s refs ledger after := by
  have now := sofar.apart apart
  have taken := (sofar.accepted_iff member).mpr accepted
  have called := call_suspend sofar.linked now member taken core
  have after := sofar.setStatus ref (withCSusp (c.memory.nodeOf ref).status)
  refine ⟨_, ?_, after⟩
  simp [applyTo, sofar.linked.loaded member, byTid_of_apart sofar.linked now member taken.2, called,
    after.linked.loaded member, after.id_eq ref member]

theorem applyTo_resume (accepted : Accepted s ref) (core : κ) :
    (cSusp (c.memory.nodeOf ref).status = true ∧
        applyTo .resumeTask core c ref = some (.going
          ⟨c.memory.setContext ref
            { c.memory.nodeOf ref with status := withoutCSusp (c.memory.nodeOf ref).status },
          c.applied ++ [ref], c.controlledContexts ++ [idObj (s.nodeOf ref).id]⟩)) ∨
      (cSusp (c.memory.nodeOf ref).status = false ∧
        applyTo .resumeTask core c ref = some (.going c)) := by
  have now := sofar.apart apart
  have taken := (sofar.accepted_iff member).mpr accepted
  have called := call_resume sofar.linked now member taken core
  cases suspended : cSusp (c.memory.nodeOf ref).status with
  | true =>
    have after := sofar.setStatus ref (withoutCSusp (c.memory.nodeOf ref).status)
    rw [suspended, if_pos rfl] at called
    exact .inl ⟨rfl, by
      simp [applyTo, sofar.linked.loaded member, byTid_of_apart sofar.linked now member taken.2, called,
        after.linked.loaded member, after.id_eq ref member]⟩
  | false =>
    rw [suspended, if_neg (by simp)] at called
    exact .inr ⟨rfl, by
      simp [applyTo, sofar.linked.loaded member, byTid_of_apart sofar.linked now member taken.2, called]⟩

theorem applyTo_end (accepted : Accepted s ref) (core : κ) :
    (s.currentTIDs core = (s.nodeOf ref).id ∧
        ∃ after, applyTo .endTask core c ref =
          some (.halted ⟨after, c.applied ++ [ref], c.controlledContexts⟩ .deleted)) ∨
      (s.currentTIDs core ≠ (s.nodeOf ref).id ∧ applyTo .endTask core c ref = none) := by
  have now := sofar.apart apart
  have taken := (sofar.accepted_iff member).mpr accepted
  obtain ⟨after, called, freed⟩ := call_end sofar.linked now member taken core
  rw [sofar.tasks, sofar.id_eq ref member] at called
  by_cases own : s.currentTIDs core = (s.nodeOf ref).id
  · rw [if_pos own] at called
    exact .inl ⟨own, after, by
      simp [applyTo, sofar.linked.loaded member, sofar.id_eq ref member,
        sofar.id_eq ref member ▸ byTid_of_apart sofar.linked now member taken.2, called]⟩
  · rw [if_neg own] at called
    exact .inr ⟨own, by
      simp [applyTo, sofar.linked.loaded member, sofar.id_eq ref member,
        sofar.id_eq ref member ▸ byTid_of_apart sofar.linked now member taken.2, called, freed]⟩

theorem applyTo_going (known : op ≠ .null) {core : κ} {after : Controlled σ κ}
    (going : applyTo op core c ref = some (.going after)) : Sofar s refs ledger after.memory := by
  by_cases accepted : Accepted s ref
  · cases op with
    | endTask =>
      rcases applyTo_end apart sofar member accepted core with ⟨_, _, halted⟩ | ⟨_, fault⟩
      · rw [halted] at going
        cases going
      · rw [fault] at going
        cases going
    | resumeTask =>
      rcases applyTo_resume apart sofar member accepted core with ⟨_, ran⟩ | ⟨_, ran⟩
      · rw [ran] at going
        cases going
        exact sofar.setStatus ref _
      · rw [ran] at going
        cases going
        exact sofar
    | suspendTask =>
      obtain ⟨_, ran, now⟩ := applyTo_suspend apart sofar member accepted core
      rw [ran] at going
      cases going
      exact now
    | null => exact absurd rfl known
  · obtain ⟨error, ran⟩ := applyTo_refused apart sofar member accepted known core
    rw [ran] at going
    cases going

end

end Applying

/-! ## The loops as one sequence of operations -/

/-- Run the body of a loop for contexts one after the other. -/
def inTurn (body : Controlled σ κ → Ref → Option (Progress σ κ)) :
    List Ref → Controlled σ κ → Option (Progress σ κ)
  | [], c => some (.going c)
  | ref :: rest, c => do
      match ← body c ref with
      | .going c => inTurn body rest c
      | .halted c ended => some (.halted c ended)

/-- How the call ends after a loop. -/
def Progress.finish : Progress σ κ → Controlled σ κ × ControlEnd
  | .going c => (c, .returned c.controlledContexts)
  | .halted c ended => (c, ended)

section Loops

variable {op : OpFunc} {core : κ} {body : Controlled σ κ → Ref → Option (Progress σ κ)}

theorem inTurn_append (visits more : List Ref) (c : Controlled σ κ) :
    inTurn body (visits ++ more) c = (inTurn body visits c).bind fun progress =>
      match progress with
      | .going c => inTurn body more c
      | .halted c ended => some (.halted c ended) := by
  induction visits generalizing c with
  | nil => rfl
  | cons ref visits ih =>
    simp only [cons_append, inTurn, bind_eq_bind]
    cases body c ref with
    | none => rfl
    | some progress =>
      cases progress with
      | going c => exact ih c
      | halted c ended => rfl

variable {early late : List Ref} {c : Controlled σ κ}

/-- A loop over the contexts runs its body for each of them in turn, if the body keeps the
links. -/
theorem forContexts_eq (split : refs = early ++ late)
    (keeps : ∀ c next, Sofar s refs ledger c.memory → ∀ ref ∈ late,
      body c ref = some (.going next) → Sofar s refs ledger next.memory)
    (sofar : Sofar s refs ledger c.memory) {fuel : Nat} (enough : late.length < fuel) :
    forContexts body fuel c (late.headD 0) = (inTurn body late c).map Progress.finish := by
  induction late generalizing early c fuel with
  | nil =>
    obtain ⟨fuel, rfl⟩ : ∃ more, fuel = more + 1 := ⟨fuel - 1, by omega⟩
    rfl
  | cons ref late ih =>
    obtain ⟨fuel, rfl⟩ : ∃ more, fuel = more + 1 := ⟨fuel - 1, by omega⟩
    have member : ref ∈ refs := by simp [split]
    have notNull := sofar.linked.chain.ne_zero ref member
    rw [headD_cons, forContexts, if_neg notNull, inTurn]
    cases ran : body c ref with
    | none => rfl
    | some progress =>
      cases progress with
      | halted c ended => rfl
      | going next =>
        have now := keeps c next sofar ref mem_cons_self ran
        have link : (next.memory.nodeOf ref).next = late.headD 0 := by
          have chain := now.linked.chain
          rw [split] at chain
          cases late with
          | nil =>
            have last := chain.link_last
            rw [now.linked.next_eq member] at last
            exact some.inj last
          | cons after late =>
            have linked := chain.link
            rw [now.linked.next_eq member] at linked
            exact some.inj linked
        have shorter : late.length < fuel := by
          rw [length_cons] at enough
          omega
        have longer : refs = (early ++ [ref]) ++ late := by simp [split]
        have step := ih longer
          (fun c next sofar other later => keeps c next sofar other (mem_cons_of_mem _ later))
          now shorter
        simp only [bind_eq_bind, bind_some, now.linked.loaded member, link]
        exact step

variable (apart : IdsApart s refs) (known : op ≠ .null)
include apart known

theorem inTurn_going {visits : List Ref} (listed : ∀ ref ∈ visits, ref ∈ refs)
    {c after : Controlled σ κ} (sofar : Sofar s refs ledger c.memory)
    (going : inTurn (applyTo op core) visits c = some (.going after)) : Sofar s refs ledger after.memory := by
  induction visits generalizing c with
  | nil =>
    cases going
    exact sofar
  | cons ref visits ih =>
    simp only [inTurn, bind_eq_bind] at going
    cases ran : applyTo op core c ref with
    | none => simp [ran] at going
    | some progress =>
      cases progress with
      | halted c ended => simp [ran] at going
      | going next =>
        simp only [ran, bind_some] at going
        exact ih (fun other member => listed other (mem_cons_of_mem _ member))
          (applyTo_going apart sofar (listed ref mem_cons_self) known ran) going

theorem applyItems_eq (sofar : Sofar s refs ledger c.memory) {ref : Ref} (member : ref ∈ refs)
    (items : List Int) :
    applyItems op core false items c ref =
      inTurn (applyTo op core) (List.replicate ((items.map targetOf).count (s.nodeOf ref).id) ref) c := by
  induction items generalizing c with
  | nil => rfl
  | cons item items ih =>
    simp only [applyItems, readTarget, applyIf, sofar.linked.loaded member, sofar.id_eq ref member,
      bind_eq_bind, bind_some, Bool.false_eq_true, if_false, map_cons]
    by_cases same : (s.nodeOf ref).id = targetOf item
    · rw [if_pos same, ← same, count_cons_self, replicate_succ, inTurn]
      cases ran : applyTo op core c ref with
      | none => rfl
      | some progress =>
        cases progress with
        | halted c ended => rfl
        | going next => exact ih (applyTo_going apart sofar member known ran)
    · rw [if_neg same, count_cons_of_ne (Ne.symm same)]
      exact ih sofar

/-- A loop whose body applies the operation some times to each context is one sequence of
operations. -/
theorem forContexts_applyTo {hits : Ref → Nat} (split : refs = early ++ late)
    (bodyIs : ∀ c, Sofar s refs ledger c.memory → ∀ ref ∈ late,
      body c ref = inTurn (applyTo op core) (List.replicate (hits ref) ref) c)
    (sofar : Sofar s refs ledger c.memory) {fuel : Nat} (enough : late.length < fuel) :
    forContexts body fuel c (late.headD 0) =
      (inTurn (applyTo op core) (late.flatMap fun ref => List.replicate (hits ref) ref) c).map
        Progress.finish := by
  have listed : ∀ ref ∈ late, ref ∈ refs := fun ref member => by simp [split, member]
  have keeps : ∀ c next, Sofar s refs ledger c.memory → ∀ ref ∈ late,
      body c ref = some (.going next) → Sofar s refs ledger next.memory := by
    intro c next sofar ref member going
    rw [bodyIs c sofar ref member] at going
    exact inTurn_going apart known
      (fun other copied => eq_of_mem_replicate copied ▸ listed ref member) sofar going
  rw [forContexts_eq split keeps sofar enough]
  congr 1
  clear split enough
  induction late generalizing c with
  | nil => rfl
  | cons ref late ih =>
    rw [flatMap_cons, inTurn_append, ← bodyIs c sofar ref mem_cons_self, inTurn]
    cases ran : body c ref with
    | none => rfl
    | some progress =>
      cases progress with
      | halted c ended => rfl
      | going next =>
        exact ih
          (fun c sofar other later => bodyIs c sofar other (mem_cons_of_mem _ later))
          (keeps c next sofar ref mem_cons_self ran)
          (fun other later => listed other (mem_cons_of_mem _ later))
          (fun c next sofar other later =>
            keeps c next sofar other (mem_cons_of_mem _ later))

end Loops

/-! ## What a sequence of operations does -/

section Sequences

variable (apart : IdsApart s refs) (core : κ) {visits : List Ref}
  (listed : ∀ ref ∈ visits, ref ∈ refs) {c : Controlled σ κ} (sofar : Sofar s refs ledger c.memory)
include apart listed sofar

theorem inTurn_suspend (accepted : ∀ ref ∈ visits, Accepted s ref) :
    ∃ after, inTurn (applyTo .suspendTask core) visits c = some (.going ⟨after, c.applied ++ visits,
      c.controlledContexts ++ visits.map fun ref => idObj (s.nodeOf ref).id⟩) := by
  induction visits generalizing c with
  | nil => exact ⟨c.memory, by simp [inTurn]⟩
  | cons ref visits ih =>
    obtain ⟨memory, ran, now⟩ := applyTo_suspend apart sofar (listed ref mem_cons_self)
      (accepted ref mem_cons_self) core
    have later := ih
      (fun other member => listed other (mem_cons_of_mem _ member))
      (c := ⟨memory, c.applied ++ [ref], c.controlledContexts ++ [idObj (s.nodeOf ref).id]⟩) now
      (fun other member => accepted other (mem_cons_of_mem _ member))
    obtain ⟨after, ranAll⟩ := later
    refine ⟨after, ?_⟩
    simp only [inTurn, ran, bind_eq_bind, bind_some, ranAll, append_assoc,
      singleton_append, map_cons]

/-- Every context that is suspended is resumed at its first turn, and only then. -/
theorem inTurn_resume (accepted : ∀ ref ∈ visits, Accepted s ref) :
    ∃ after resumed, inTurn (applyTo .resumeTask core) visits c = some (.going ⟨after,
        c.applied ++ resumed,
        c.controlledContexts ++ resumed.map fun ref => idObj (s.nodeOf ref).id⟩) ∧
      resumed.Nodup ∧
      ∀ ref, ref ∈ resumed ↔ ref ∈ visits ∧ cSusp (c.memory.nodeOf ref).status = true := by
  induction visits generalizing c with
  | nil => exact ⟨c.memory, [], by simp [inTurn]⟩
  | cons ref visits ih =>
    have laterListed : ∀ other ∈ visits, other ∈ refs := fun other member =>
      listed other (mem_cons_of_mem _ member)
    have laterAccepted : ∀ other ∈ visits, Accepted s other := fun other member =>
      accepted other (mem_cons_of_mem _ member)
    rcases applyTo_resume apart sofar (listed ref mem_cons_self)
      (accepted ref mem_cons_self) core with ⟨suspended, ran⟩ | ⟨awake, ran⟩
    · have now := sofar.setStatus ref (withoutCSusp (c.memory.nodeOf ref).status)
      generalize reset : c.memory.setContext ref
        { c.memory.nodeOf ref with status := withoutCSusp (c.memory.nodeOf ref).status } = memory
        at ran now
      have statusOf (other : Ref) : cSusp (memory.nodeOf other).status =
          (decide (other ≠ ref) && cSusp (c.memory.nodeOf other).status) := by
        rw [← reset, MpContexts.setContext_nodeOf]
        by_cases same : other = ref <;> simp [same]
      have later := ih laterListed
        (c := ⟨memory, c.applied ++ [ref], c.controlledContexts ++ [idObj (s.nodeOf ref).id]⟩) now
        laterAccepted
      obtain ⟨after, resumed, ranAll, distinct, resumedIff⟩ := later
      refine ⟨after, ref :: resumed, ?_, ?_, ?_⟩
      · simp only [inTurn, ran, bind_eq_bind, bind_some, ranAll,
          append_assoc, singleton_append, map_cons]
      · refine nodup_cons.mpr ⟨fun again => ?_, distinct⟩
        simpa [statusOf] using ((resumedIff ref).mp again).2
      · intro other
        rw [mem_cons, mem_cons, resumedIff other, statusOf other]
        by_cases same : other = ref
        · subst same
          simp [suspended]
        · simp [same]
    · obtain ⟨after, resumed, ranAll, distinct, resumedIff⟩ :=
        ih laterListed sofar laterAccepted
      refine ⟨after, resumed, ?_, distinct, ?_⟩
      · simp only [inTurn, ran, bind_eq_bind, bind_some, ranAll]
      · intro other
        rw [mem_cons, resumedIff other]
        by_cases same : other = ref
        · subst same
          simp [awake]
        · simp [same]

theorem inTurn_refused (steady : op = .resumeTask ∨ op = .suspendTask)
    (refused : ∃ ref ∈ visits, ¬Accepted s ref) :
    ∃ after error, inTurn (applyTo op core) visits c = some (.halted after (.raised error)) := by
  have known : op ≠ .null := by rcases steady with rfl | rfl <;> simp
  induction visits generalizing c with
  | nil => simp at refused
  | cons ref visits ih =>
    have member := listed ref mem_cons_self
    by_cases accepted : Accepted s ref
    · have going : ∃ next, applyTo op core c ref = some (.going next) := by
        rcases steady with rfl | rfl
        · rcases applyTo_resume apart sofar member accepted core with ⟨_, ran⟩ | ⟨_, ran⟩
          · exact ⟨_, ran⟩
          · exact ⟨_, ran⟩
        · obtain ⟨_, ran, _⟩ := applyTo_suspend apart sofar member accepted core
          exact ⟨_, ran⟩
      obtain ⟨next, ran⟩ := going
      have later : ∃ other ∈ visits, ¬Accepted s other := by
        obtain ⟨other, visited, refused⟩ := refused
        rcases mem_cons.mp visited with rfl | visited
        · exact absurd accepted refused
        · exact ⟨other, visited, refused⟩
      obtain ⟨after, error, ranAll⟩ := ih
        (fun other member => listed other (mem_cons_of_mem _ member))
        (applyTo_going apart sofar member known ran) later
      exact ⟨after, error, by
        simp only [inTurn, ran, bind_eq_bind, bind_some, ranAll]⟩
    · obtain ⟨error, ran⟩ := applyTo_refused apart sofar member accepted known core
      exact ⟨c, error, by simp only [inTurn, ran, bind_eq_bind, bind_some]⟩

end Sequences

/-! ## The whole call -/

/-- The ids that the argument lists, if it is an integer or a list of integers. -/
def IdsArg.listed : IdsArg → Option (List Int)
  | .int id => some [id]
  | .list items => items.mapM id
  | .none | .other => Option.none

/-- The context is one of those that `ids` names; `None` names the context of the caller. -/
def Named (core : κ) (s : MpContexts σ κ) (ids : IdsArg) (ref : Ref) : Prop :=
  if ids = .none then ref = s.activeContexts core
  else (s.nodeOf ref).id ∈ (ids.listed.getD []).map targetOf

instance (core : κ) (s : MpContexts σ κ) (ids : IdsArg) (ref : Ref) :
    Decidable (Named core s ids ref) :=
  inferInstanceAs (Decidable (if ids = .none then _ = _ else _ ∈ _))

/-- How often the loop calls the operation for a context. It looks at `ids` only if an argument
is given by position; otherwise it takes all contexts but the default one. -/
def hits (s : MpContexts σ κ) (args : ControlArgs) (ref : Ref) : Nat :=
  if args.nArgs = 0 then
    if ref = s.contextHead then 0 else 1
  else
    match args.ids.listed with
    | some listed => (listed.map targetOf).count (s.nodeOf ref).id
    | none => 0

/-- The contexts that the loop calls the operation for, in order. -/
def visits (s : MpContexts σ κ) (refs : List Ref) (args : ControlArgs) : List Ref :=
  refs.flatMap fun ref => List.replicate (hits s args ref) ref

variable {args : ControlArgs}

theorem mem_visits {ref : Ref} : ref ∈ visits s refs args ↔ ref ∈ refs ∧ hits s args ref ≠ 0 := by
  simp only [visits, mem_flatMap, mem_replicate]
  constructor
  · rintro ⟨_, member, some_, rfl⟩
    exact ⟨member, some_⟩
  · rintro ⟨member, some_⟩
    exact ⟨ref, member, some_, rfl⟩

section WholeCall

variable (linked : WellLinked s refs ledger) (apart : IdsApart s refs) {op : OpFunc} {core : κ}
  {args : ControlArgs} (known : op ≠ .null) (plain : args.useContext = false)
include linked apart known plain

/-- A call that enters a loop is one sequence of operations. -/
theorem controlWith_eq (readable : args.nArgs = 0 ∨ args.ids.listed.isSome) :
    controlWith op core s args =
      (inTurn (applyTo op core) (visits s refs args) ⟨s, [], []⟩).map Progress.finish := by
  have sofar := Sofar.refl linked
  by_cases byKeyword : args.nArgs = 0
  · obtain ⟨head, rest, refsEq⟩ := exists_cons_of_ne_nil linked.nonempty
    have chain := linked.chain
    have distinct := linked.distinct
    have longer := linked.length_lt
    simp only [refsEq, nodup_cons, length_cons] at chain distinct longer
    obtain ⟨start, notNull, node, loaded, tail⟩ := chain.uncons
    have next : node.next = rest.headD 0 := tail.start_eq
    have visitsEq : visits s refs args =
        rest.flatMap fun ref => replicate (hits s args ref) ref := by
      rw [visits, refsEq, flatMap_cons, hits, if_pos byKeyword, if_pos start.symm]
      rfl
    have once (c : Controlled σ κ) (ref : Ref) (member : ref ∈ rest) :
        applyTo op core c ref = inTurn (applyTo op core) (replicate (hits s args ref) ref) c := by
      have other : ref ≠ s.contextHead := by
        rintro rfl
        exact distinct.1 (start ▸ member)
      rw [hits, if_pos byKeyword, if_neg other, replicate_one, inTurn]
      cases applyTo op core c ref with
      | none => rfl
      | some progress => cases progress <;> rfl
    have split : refs = [head] ++ rest := refsEq
    have shorter : rest.length < addressSpace := by omega
    have ran := forContexts_applyTo apart known split (fun c _ ref member => once c ref member)
      (c := ⟨s, [], []⟩) sofar shorter
    rw [controlWith, if_pos byKeyword, visitsEq, ← ran, ← next]
    simp [start, loaded]
  · have loop (body : Controlled σ κ → Ref → Option (Progress σ κ))
        (bodyIs : ∀ c, Sofar s refs ledger c.memory → ∀ ref ∈ refs,
          body c ref = inTurn (applyTo op core) (replicate (hits s args ref) ref) c) :
        forContexts body addressSpace ⟨s, [], []⟩ s.contextHead =
          (inTurn (applyTo op core) (visits s refs args) ⟨s, [], []⟩).map Progress.finish := by
      rw [linked.chain.start_eq, visits]
      exact forContexts_applyTo apart known (nil_append refs).symm bodyIs sofar linked.length_lt
    have hitsEq (ref : Ref) (listed : List Int) (isListed : args.ids.listed = some listed) :
        hits s args ref = (listed.map targetOf).count (s.nodeOf ref).id := by
      rw [hits, if_neg byKeyword, isListed]
    cases ids : args.ids with
    | none => simp [byKeyword, ids, IdsArg.listed] at readable
    | other => simp [byKeyword, ids, IdsArg.listed] at readable
    | int item =>
      simp only [controlWith, if_neg byKeyword, ids, readTarget, plain, Bool.false_eq_true,
        if_false, bind_eq_bind, bind_some]
      apply loop
      intro c now ref member
      have one : applyItems op core false [item] c ref = _ :=
        applyItems_eq apart known now member [item]
      rw [← hitsEq ref [item] (by rw [ids]; rfl)] at one
      rw [← one]
      simp only [applyItems, readTarget, Bool.false_eq_true, if_false, bind_eq_bind,
        bind_some]
      cases applyIf op core (targetOf item) c ref with
      | none => rfl
      | some progress => cases progress <;> rfl
    | list items =>
      cases all : items.mapM id with
      | none => simp [byKeyword, ids, IdsArg.listed, all] at readable
      | some listed =>
        simp only [controlWith, if_neg byKeyword, ids, all, plain]
        apply loop
        intro c now ref member
        rw [applyItems_eq apart known now member listed,
          hitsEq ref listed (by rw [ids]; exact all)]

end WholeCall

/-! ## Exactly the named contexts -/

/-- The operation has been applied once to each named context and to no other one, and the list
that is returned says so. The task that makes the call can be one that it deletes. -/
structure ExactEnd (core : κ) (s : MpContexts σ κ) (refs : List Ref) (ids : IdsArg)
    (result : Controlled σ κ × ControlEnd) : Prop where
  once : result.1.applied.Nodup
  named : ∀ ref, ref ∈ result.1.applied ↔ ref ∈ refs ∧ Named core s ids ref
  told : result.2 = .returned (result.1.applied.map fun ref => idObj (s.nodeOf ref).id) ∨
    result.2 = .deleted

/-- The call reads only listed nodes and treats exactly the named contexts. -/
def ControlExact (core : κ) (s : MpContexts σ κ) (refs : List Ref) (args : ControlArgs) : Prop :=
  ∃ result, multipythonControl core s args = some result ∧ ExactEnd core s refs args.ids result

/-- The context is accepted, and its task is the one that makes the call. -/
def EndsItself (core : κ) (s : MpContexts σ κ) (ref : Ref) : Prop :=
  Accepted s ref ∧ s.currentTIDs core = (s.nodeOf ref).id

instance (core : κ) (s : MpContexts σ κ) (ref : Ref) : Decidable (EndsItself core s ref) :=
  inferInstanceAs (Decidable (_ ∧ _))

/-- When `multipython_control` treats exactly the named contexts. -/
def ControlFits (core : κ) (s : MpContexts σ κ) (refs : List Ref) (args : ControlArgs) : Prop :=
  if args.nArgs ≠ 0 ∧ args.ids.listed = none then
    args.ids = .none ∧ args.op = 1 ∧ EndsItself core s (s.activeContexts core)
  else if args.op = 1 then
    (∀ ref ∈ (visits s refs args).head?, EndsItself core s ref) ∧
      ∀ ref ∈ refs, Named core s args.ids ref ↔ ref ∈ (visits s refs args).head?
  else
    (∀ ref ∈ visits s refs args, Accepted s ref) ∧
      if args.op = 2 then
        ∀ ref ∈ refs, Named core s args.ids ref ↔
          ref ∈ visits s refs args ∧ cSusp (s.nodeOf ref).status = true
      else
        (visits s refs args).Nodup ∧
          ∀ ref ∈ refs, Named core s args.ids ref ↔ ref ∈ visits s refs args

instance (core : κ) (s : MpContexts σ κ) (refs : List Ref) (args : ControlArgs) :
    Decidable (ControlFits core s refs args) :=
  inferInstanceAs (Decidable (if args.nArgs ≠ 0 ∧ args.ids.listed = none then _ ∧ _
    else if args.op = 1 then _ ∧ _ else _ ∧ if args.op = 2 then _ else _ ∧ _))

section Exact

variable {core : κ} {args : ControlArgs} {result : Controlled σ κ × ControlEnd}

theorem controlExact_of_ran (ran : multipythonControl core s args = some result) :
    ControlExact core s refs args ↔ ExactEnd core s refs args.ids result := by
  simp [ControlExact, ran]

theorem not_controlExact_of_raised {c : Controlled σ κ} {error : Raised}
    (ran : multipythonControl core s args = some (c, .raised error)) :
    ¬ControlExact core s refs args := by
  rw [controlExact_of_ran ran]
  intro exact
  rcases exact.told with told | told <;> cases told

theorem not_controlExact_of_fault (fault : multipythonControl core s args = none) :
    ¬ControlExact core s refs args := by
  rintro ⟨result, ran, _⟩
  rw [fault] at ran
  cases ran

/-- Where the contexts that were treated are all listed, the end is exact if they are the named
ones. -/
theorem exactEnd_iff {after : MpContexts σ κ} {applied : List Ref} {ids : IdsArg} {ended : ControlEnd}
    (listed : ∀ ref ∈ applied, ref ∈ refs) (controlled : List Int)
    (told : ended = .returned (applied.map fun ref => idObj (s.nodeOf ref).id) ∨ ended = .deleted) :
    ExactEnd core s refs ids (⟨after, applied, controlled⟩, ended) ↔
      applied.Nodup ∧ ∀ ref ∈ refs, Named core s ids ref ↔ ref ∈ applied := by
  constructor
  · intro exact
    refine ⟨exact.once, fun ref member => ⟨fun named => ?_, fun treated => ?_⟩⟩
    · exact (exact.named ref).mpr ⟨member, named⟩
    · exact ((exact.named ref).mp treated).2
  · rintro ⟨once, named⟩
    refine ⟨once, fun ref => ⟨fun treated => ?_, fun ⟨member, isNamed⟩ => ?_⟩, told⟩
    · exact ⟨listed ref treated, (named ref (listed ref treated)).mpr treated⟩
    · exact (named ref member).mp isNamed

end Exact

section ByOperation

variable (linked : WellLinked s refs ledger) (apart : IdsApart s refs) {core : κ}
  {args : ControlArgs} (plain : args.useContext = false)
  (readable : args.nArgs = 0 ∨ args.ids.listed.isSome)
include linked apart plain readable

theorem control_suspend_iff (op : args.op = 3) : ControlExact core s refs args ↔
    (∀ ref ∈ visits s refs args, Accepted s ref) ∧ (visits s refs args).Nodup ∧
      ∀ ref ∈ refs, Named core s args.ids ref ↔ ref ∈ visits s refs args := by
  have sofar := Sofar.refl linked
  have listed : ∀ ref ∈ visits s refs args, ref ∈ refs := fun _ visited => (mem_visits.mp visited).1
  have ran : multipythonControl core s args =
      (inTurn (applyTo .suspendTask core) (visits s refs args) ⟨s, [], []⟩).map Progress.finish := by
    rw [← controlWith_eq linked apart (by simp) plain readable, multipythonControl, op]
    rfl
  by_cases accepted : ∀ ref ∈ visits s refs args, Accepted s ref
  · obtain ⟨after, all⟩ := inTurn_suspend apart core listed (c := ⟨s, [], []⟩) sofar accepted
    rw [all, map_some] at ran
    rw [controlExact_of_ran ran, Progress.finish, exactEnd_iff (by simpa using listed) _
      (.inl (by simp))]
    simp only [nil_append]
    exact (and_iff_right accepted).symm
  · have refused : ∃ ref ∈ visits s refs args, ¬Accepted s ref := by simpa using accepted
    obtain ⟨after, error, all⟩ := inTurn_refused apart core listed (c := ⟨s, [], []⟩) sofar
      (.inr rfl) refused
    rw [all, map_some] at ran
    exact iff_of_false (not_controlExact_of_raised ran) (fun fits => accepted fits.1)

theorem control_resume_iff (op : args.op = 2) : ControlExact core s refs args ↔
    (∀ ref ∈ visits s refs args, Accepted s ref) ∧ ∀ ref ∈ refs, Named core s args.ids ref ↔
      ref ∈ visits s refs args ∧ cSusp (s.nodeOf ref).status = true := by
  have sofar := Sofar.refl linked
  have listed : ∀ ref ∈ visits s refs args, ref ∈ refs := fun _ visited => (mem_visits.mp visited).1
  have ran : multipythonControl core s args =
      (inTurn (applyTo .resumeTask core) (visits s refs args) ⟨s, [], []⟩).map Progress.finish := by
    rw [← controlWith_eq linked apart (by simp) plain readable, multipythonControl, op]
    rfl
  by_cases accepted : ∀ ref ∈ visits s refs args, Accepted s ref
  · obtain ⟨after, resumed, all, once, resumedIff⟩ := inTurn_resume apart core listed
      (c := ⟨s, [], []⟩) sofar accepted
    have resumedListed : ∀ ref ∈ ([] ++ resumed), ref ∈ refs := fun ref member =>
      listed ref ((resumedIff ref).mp member).1
    rw [all, map_some] at ran
    rw [controlExact_of_ran ran, Progress.finish, exactEnd_iff resumedListed _ (.inl (by simp))]
    simp only [nil_append, resumedIff]
    rw [and_iff_right once, and_iff_right accepted]
  · have refused : ∃ ref ∈ visits s refs args, ¬Accepted s ref := by simpa using accepted
    obtain ⟨after, error, all⟩ := inTurn_refused apart core listed (c := ⟨s, [], []⟩) sofar
      (.inl rfl) refused
    rw [all, map_some] at ran
    exact iff_of_false (not_controlExact_of_raised ran) (fun fits => accepted fits.1)

/-- Ending a context of another task faults, so a loop that ends contexts treats one at most. -/
theorem control_end_iff (op : args.op = 1) : ControlExact core s refs args ↔
    (∀ ref ∈ (visits s refs args).head?, EndsItself core s ref) ∧
      ∀ ref ∈ refs, Named core s args.ids ref ↔ ref ∈ (visits s refs args).head? := by
  have sofar := Sofar.refl linked
  have ran : multipythonControl core s args =
      (inTurn (applyTo .endTask core) (visits s refs args) ⟨s, [], []⟩).map Progress.finish := by
    rw [← controlWith_eq linked apart (by simp) plain readable, multipythonControl, op]
    rfl
  cases visited : visits s refs args with
  | nil =>
    rw [visited, inTurn, map_some] at ran
    rw [controlExact_of_ran ran, Progress.finish, exactEnd_iff (by simp) _ (.inl (by simp))]
    simp
  | cons first later =>
    have member : first ∈ refs := (mem_visits.mp (visited ▸ mem_cons_self)).1
    simp only [visited, inTurn, bind_eq_bind] at ran ⊢
    by_cases accepted : Accepted s first
    · rcases applyTo_end apart (c := ⟨s, [], []⟩) sofar member accepted core with
        ⟨own, after, ended⟩ | ⟨other, fault⟩
      · rw [ended, bind_some, map_some] at ran
        rw [controlExact_of_ran ran, Progress.finish,
          exactEnd_iff (by simpa using member) _ (.inr rfl)]
        simp [EndsItself, accepted, own, eq_comm]
      · rw [fault, bind_none, map_none] at ran
        exact iff_of_false (not_controlExact_of_fault ran) (fun fits => other (fits.1 first rfl).2)
    · obtain ⟨error, refused⟩ := applyTo_refused apart (c := ⟨s, [], []⟩) sofar member accepted
        (show OpFunc.endTask ≠ .null by simp) core
      rw [refused, bind_some, map_some] at ran
      exact iff_of_false (not_controlExact_of_raised ran) (fun fits => accepted (fits.1 first rfl).1)

end ByOperation

/-- Without an iterator there is no id to append, so `None` by position serves one purpose only:
that the caller ends itself. -/
theorem control_none_iff (linked : WellLinked s refs ledger) (apart : IdsApart s refs) {core : κ}
    (op : args.op = 1 ∨ args.op = 2 ∨ args.op = 3) (active : s.activeContexts core ∈ refs)
    (byPosition : args.nArgs ≠ 0) (unlisted : args.ids.listed = none) :
    ControlExact core s refs args ↔
      args.ids = .none ∧ args.op = 1 ∧ EndsItself core s (s.activeContexts core) := by
  obtain ⟨opFunc, known, ran⟩ : ∃ opFunc, opFunc ≠ OpFunc.null ∧
      multipythonControl core s args = controlWith opFunc core s args ∧
      (opFunc = .endTask ↔ args.op = 1) := by
    rcases op with op | op | op
    · exact ⟨.endTask, by simp, by simp [multipythonControl, OpFunc.ofControlOp, op], by simp [op]⟩
    · exact ⟨.resumeTask, by simp, by simp [multipythonControl, OpFunc.ofControlOp, op], by simp [op]⟩
    · exact ⟨.suspendTask, by simp, by simp [multipythonControl, OpFunc.ofControlOp, op], by simp [op]⟩
  obtain ⟨ran, isEnd⟩ := ran
  cases ids : args.ids with
  | int item => simp [ids, IdsArg.listed] at unlisted
  | list items =>
    have mixed : items.mapM id = none := by simpa [ids, IdsArg.listed] using unlisted
    simp only [controlWith, if_neg byPosition, ids, mixed] at ran
    exact iff_of_false (not_controlExact_of_raised ran) (by simp)
  | other =>
    simp only [controlWith, if_neg byPosition, ids] at ran
    exact iff_of_false (not_controlExact_of_raised ran) (by simp)
  | none =>
    simp only [controlWith, if_neg byPosition, ids, linked.loaded active, bind_eq_bind,
      bind_some] at ran
    by_cases accepted : Accepted s (s.activeContexts core)
    · rw [byTid_of_apart linked apart active accepted.2, bind_some] at ran
      cases opFunc with
      | endTask =>
        obtain ⟨after, called, _⟩ := call_end linked apart active accepted core
        rw [called, bind_some] at ran
        by_cases own : s.currentTIDs core = (s.nodeOf (s.activeContexts core)).id
        · rw [if_pos own] at ran
          rw [controlExact_of_ran ran, exactEnd_iff (by simpa using active) _ (.inr rfl)]
          simp [ids, Named, EndsItself, accepted, own, isEnd.mp rfl]
        · rw [if_neg own] at ran
          exact iff_of_false (not_controlExact_of_fault ran) (fun fits => own fits.2.2.2)
      | resumeTask =>
        have other : args.op ≠ 1 := fun same => by cases isEnd.mpr same
        refine iff_of_false (fun exact => ?_) (fun fits => other fits.2.1)
        rw [call_resume linked apart active accepted core] at ran
        by_cases suspended : cSusp (s.nodeOf (s.activeContexts core)).status = true
        · rw [if_pos suspended] at ran
          exact not_controlExact_of_fault ran exact
        · rw [if_neg suspended] at ran
          rw [controlExact_of_ran ran] at exact
          have named : Named core s args.ids (s.activeContexts core) := by simp [Named, ids]
          cases (exact.named _).mpr ⟨active, named⟩
      | suspendTask =>
        have other : args.op ≠ 1 := fun same => by cases isEnd.mpr same
        rw [call_suspend linked apart active accepted core] at ran
        exact iff_of_false (not_controlExact_of_fault ran) (fun fits => other fits.2.1)
      | null => exact absurd rfl known
    · obtain ⟨context, error, found, called⟩ :=
        call_refused linked apart active accepted known core
      rw [found, bind_some, called] at ran
      exact iff_of_false (not_controlExact_of_raised ran) (fun fits => accepted fits.2.2.1)

/-- For every context list and every argument `ids`, given by position or by keyword, the call
treats exactly the named contexts if and only if the call fits. -/
theorem multipythonControl_exact_iff (linked : WellLinked s refs ledger) (apart : IdsApart s refs)
    (core : κ) (active : s.activeContexts core ∈ refs) (args : ControlArgs)
    (op : args.op = 1 ∨ args.op = 2 ∨ args.op = 3) (plain : args.useContext = false) :
    ControlExact core s refs args ↔ ControlFits core s refs args := by
  rw [ControlFits]
  split
  · next unread => exact control_none_iff linked apart op active unread.1 unread.2
  · next read =>
      have readable : args.nArgs = 0 ∨ args.ids.listed.isSome := by
        by_cases byKeyword : args.nArgs = 0
        · exact Or.inl byKeyword
        · exact Or.inr (isSome_iff_ne_none.mpr fun unlisted => read ⟨byKeyword, unlisted⟩)
      rcases op with op | op | op
      · rw [if_pos op]
        exact control_end_iff linked apart plain readable op
      · rw [if_neg (by omega), if_pos op]
        exact control_resume_iff linked apart plain readable op
      · rw [if_neg (by omega), if_neg (by omega)]
        exact control_suspend_iff linked apart plain readable op

/-! ## Two contexts -/

/-- The default context, whose task calls, and one other. -/
def twoContexts : MpContexts Unit Unit where
  contexts ref :=
    if ref = 4 then some { MpContextNode.zeroed with id := 100, state := 8, next := 12 }
    else if ref = 12 then some { MpContextNode.zeroed with id := 200, state := 16 }
    else none
  states ref := if ref = 8 ∨ ref = 16 then some () else none
  dynmems _ := none
  blocks _ := none
  contextHead := 4
  activeContexts _ := 4
  activeContextMirrors _ := .zeroed
  currentTIDs _ := 100

theorem twoContexts_linked : WellLinked twoContexts [4, 12] fun _ => [] where
  chain := .cons (by decide) rfl (.cons (by decide) rfl .nil)
  nonempty := by simp
  distinct := by simp
  bounded := by decide
  stated := by decide
  statesApart := by decide
  ledgers := by
    intro ref member
    rcases mem_pair.mp member with rfl | rfl
    · exact .nil
    · exact .nil
  ledgerDistinct := by simp
  ledgerBounded := by simp
  ledgersApart := by simp

theorem multipythonControl_exact_suspend :
    ControlExact () twoContexts [4, 12] ⟨2, .list [some 200], 3, false⟩ :=
  (multipythonControl_exact_iff twoContexts_linked (by unfold IdsApart; decide) () (by decide)
    ⟨2, .list [some 200], 3, false⟩ (by decide) rfl).mpr (by decide)

/-- Ending another context reads its freed node, and a list by keyword suspends every context. -/
theorem multipythonControl_reads_freed :
    multipythonControl () twoContexts ⟨2, .int 200, 1, false⟩ = none ∧
    ¬ControlExact () twoContexts [4, 12] ⟨2, .int 200, 1, false⟩ ∧
    (multipythonControl () twoContexts ⟨0, .list [], 3, false⟩).map (fun result => result.1.applied) =
      some [12] ∧
    (multipythonControl () twoContexts ⟨2, .list [some 200, some 200], 3, false⟩).map
      (fun result => result.1.applied) = some [12, 12] := by
  have fault : multipythonControl () twoContexts ⟨2, .int 200, 1, false⟩ = none := by
    decide
  exact ⟨fault, not_controlExact_of_fault fault, by decide, by decide⟩

end MultiPython.Esp32
