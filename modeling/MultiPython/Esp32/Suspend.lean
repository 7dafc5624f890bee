import MultiPython.Logic.Run

/-!
# Suspending and resuming a context

`multipython_suspend_task` and `multipython_resume_task` change the status of a context and the
state of its task in separate steps, and nothing keeps two requests apart. The requests
of any number of tasks take their steps in any order. When no request is under way, status
and task agree, provided that no request made both its changes between the two
changes of a request of the other kind.
-/

namespace MultiPython.Esp32

open Logic Option Function

def mpCsusp : BitVec 32 := 1#32 <<< 0

/-- How far the request of a task has come. -/
inductive Phase where
  | idle
  /-- The status is set, and `vTaskSuspend` is next. -/
  | suspending
  /-- The status was found set, and is to be cleared next. -/
  | tested
  /-- The status is cleared, and `vTaskResume` is next. -/
  | resuming
deriving DecidableEq, Repr

/-- The steps of the two functions; a context that suspends itself when it starts takes those
of the first. -/
inductive RequestStep where
  | setStatus
  | vTaskSuspend
  | testStatus
  | clearStatus
  | vTaskResume
deriving DecidableEq, Repr

variable {ι : Type}

/-- A context and the requests concerning it. -/
structure Suspension (ι : Type) where
  status : BitVec 32
  /-- The task of the context is suspended. -/
  taskSuspended : Bool
  phase : ι → Phase

namespace Suspension

/-- The context as `mp_task_register` leaves it. -/
def initial : Suspension ι := ⟨0#32, false, fun _ => .idle⟩

variable (s : Suspension ι)

/-- `status & MP_CSUSP`. -/
def statusSet : Bool := decide (s.status &&& mpCsusp ≠ 0#32)

/-- No request is under way. -/
def Quiet : Prop := ∀ requester, s.phase requester = .idle

/-- Status and task agree, and a request to resume a suspended task is not refused. -/
def Agrees : Prop :=
  s.Quiet → (s.statusSet = s.taskSuspended ∧ (s.taskSuspended = true → s.statusSet = true))

variable [DecidableEq ι]

/-- One step of a request. `vTaskResume` of a task that runs has no effect, nor has
`vTaskSuspend` of one that is suspended. -/
def step : ι × RequestStep → Option (Suspension ι)
  | (requester, .setStatus) =>
    if s.phase requester = .idle then
      some
        { s with
          status := s.status ||| mpCsusp
          phase := Function.update s.phase requester .suspending }
    else
      none
  | (requester, .vTaskSuspend) =>
    if s.phase requester = .suspending then
      some
        { s with
          taskSuspended := true
          phase := Function.update s.phase requester .idle }
    else
      none
  | (requester, .testStatus) =>
    if s.phase requester = .idle then
      some
        (if s.statusSet then { s with phase := Function.update s.phase requester .tested } else s)
    else
      none
  | (requester, .clearStatus) =>
    if s.phase requester = .tested then
      some
        { s with
          status := s.status &&& ~~~mpCsusp
          phase := Function.update s.phase requester .resuming }
    else
      none
  | (requester, .vTaskResume) =>
    if s.phase requester = .resuming then
      some
        { s with
          taskSuspended := false
          phase := Function.update s.phase requester .idle }
    else
      none

/-- When a request changes the task, the status is as the request left it, or a request of the
other kind that changed the status since is still to change the task. -/
def InOrder : ι × RequestStep → Prop
  | (_, .vTaskSuspend) => s.statusSet = true ∨ ∃ other, s.phase other = .resuming
  | (_, .vTaskResume) => s.statusSet = false ∨ ∃ other, s.phase other = .suspending
  | _ => True

end Suspension

section Steps

variable {s after : Suspension ι}

theorem statusSet_set (status : BitVec 32) :
    decide ((status ||| mpCsusp) &&& mpCsusp ≠ 0#32) = true := by
  have bit : (status ||| mpCsusp) &&& mpCsusp = mpCsusp := by
    ext index
    simp only [BitVec.getElem_and, BitVec.getElem_or]
    cases mpCsusp[index] <;> simp
  rw [bit]
  decide

theorem statusSet_clear (status : BitVec 32) :
    decide ((status &&& ~~~mpCsusp) &&& mpCsusp ≠ 0#32) = false := by
  have bit : (status &&& ~~~mpCsusp) &&& mpCsusp = 0#32 := by
    ext index
    simp
  rw [bit]
  decide

/-- Status and task agree, unless a request that left the status as it is has not changed the
task yet. -/
structure Settled (s : Suspension ι) : Prop where
  suspended : s.statusSet = true → (∀ requester, s.phase requester ≠ .suspending) →
    s.taskSuspended = true
  running : s.statusSet = false → (∀ requester, s.phase requester ≠ .resuming) →
    s.taskSuspended = false

theorem Settled.agrees (settled : Settled s) : s.Agrees := by
  intro quiet
  have same : s.statusSet = s.taskSuspended := by
    cases isSet : s.statusSet with
    | true => exact (settled.suspended isSet fun requester => by simp [quiet requester]).symm
    | false => exact (settled.running isSet fun requester => by simp [quiet requester]).symm
  exact ⟨same, fun suspended => same.trans suspended⟩

variable [DecidableEq ι]

/-- A requester that was not in a phase is the only one whose phase changed. -/
theorem phase_ne_of_update {phase : ι → Phase} {requester : ι} {now other : Phase}
    (was : phase requester ≠ other)
    (nobody : ∀ one, Function.update phase requester now one ≠ other) (one : ι) :
    phase one ≠ other := by
  by_cases same : one = requester
  · rw [same]
    exact was
  · rw [← update_of_ne same now phase]
    exact nobody one

/-- A step that is in order keeps status and task settled. -/
theorem Settled.step {taken : ι × RequestStep} (settled : Settled s) (inOrder : s.InOrder taken)
    (stepped : s.step taken = some after) : Settled after := by
  obtain ⟨requester, kind⟩ := taken
  cases kind with
  | setStatus =>
    obtain ⟨_, isAfter⟩ := ite_none_right_eq_some.mp stepped
    obtain rfl := some.inj isAfter
    refine ⟨fun _ nobody => ?_, fun isClear => ?_⟩
    · exact absurd (update_self ..) (nobody requester)
    · exact absurd (isClear.symm.trans (statusSet_set s.status)) (by decide)
  | vTaskSuspend =>
    obtain ⟨was, isAfter⟩ := ite_none_right_eq_some.mp stepped
    obtain rfl := some.inj isAfter
    refine ⟨fun _ _ => rfl, fun isClear nobody => ?_⟩
    have isClear : s.statusSet = false := isClear
    rcases inOrder with isSet | ⟨other, resuming⟩
    · rw [isClear] at isSet
      cases isSet
    · exact absurd resuming (phase_ne_of_update (by simp [was]) nobody other)
  | testStatus =>
    obtain ⟨was, isAfter⟩ := ite_none_right_eq_some.mp stepped
    obtain rfl := some.inj isAfter
    split
    · refine ⟨fun isSet nobody => settled.suspended isSet ?_,
        fun isClear nobody => settled.running isClear ?_⟩
      · exact phase_ne_of_update (by simp [was]) nobody
      · exact phase_ne_of_update (by simp [was]) nobody
    · exact settled
  | clearStatus =>
    obtain ⟨_, isAfter⟩ := ite_none_right_eq_some.mp stepped
    obtain rfl := some.inj isAfter
    refine ⟨fun isSet => ?_, fun _ nobody => ?_⟩
    · exact absurd (isSet.symm.trans (statusSet_clear s.status)) (by decide)
    · exact absurd (update_self ..) (nobody requester)
  | vTaskResume =>
    obtain ⟨was, isAfter⟩ := ite_none_right_eq_some.mp stepped
    obtain rfl := some.inj isAfter
    refine ⟨fun isSet nobody => ?_, fun _ _ => rfl⟩
    have isSet : s.statusSet = true := isSet
    rcases inOrder with isClear | ⟨other, suspending⟩
    · rw [isSet] at isClear
      cases isClear
    · exact absurd suspending (phase_ne_of_update (by simp [was]) nobody other)

end Steps

section Runs

variable [DecidableEq ι]

/-- In every interleaving of any number of requests in which every change of the task is in order,
status and task agree whenever no request is under way. -/
theorem suspension_agrees {run : List ((ι × RequestStep) × Suspension ι)}
    (runs : Run (fun s taken after => s.step taken = some after) Suspension.initial run)
    (inOrder : ∀ taken ∈ fired Suspension.initial run, taken.1.InOrder taken.2) :
    ∀ s ∈ visited Suspension.initial run, s.Agrees := by
  intro s member
  have clear : (Suspension.initial (ι := ι)).statusSet = false := by
    simp [Suspension.statusSet, Suspension.initial]
  have start : Settled (Suspension.initial (ι := ι)) :=
    ⟨fun isSet => absurd (clear.symm.trans isSet) (by decide), fun _ _ => rfl⟩
  exact (runs.invariant_of_fired Settled Suspension.InOrder start
    (fun settled isInOrder stepped => settled.step isInOrder stepped) inOrder s member).agrees

end Runs

instance (s : Suspension Bool) (taken : Bool × RequestStep) : Decidable (s.InOrder taken) :=
  match taken with
  | (_, .vTaskSuspend) =>
    inferInstanceAs (Decidable (s.statusSet = true ∨ ∃ other, s.phase other = .resuming))
  | (_, .vTaskResume) =>
    inferInstanceAs (Decidable (s.statusSet = false ∨ ∃ other, s.phase other = .suspending))
  | (_, .setStatus) | (_, .testStatus) | (_, .clearStatus) => .isTrue trivial

instance (s : Suspension Bool) : Decidable s.Quiet :=
  inferInstanceAs (Decidable (∀ requester, s.phase requester = .idle))

/-- One task suspends the context and another one resumes it, with the requests overlapping. -/
theorem suspension_agrees_overlapping :
    ∃ run : List ((Bool × RequestStep) × Suspension Bool),
      run.map Prod.fst = [(false, .setStatus), (true, .testStatus), (false, .vTaskSuspend),
        (true, .clearStatus), (true, .vTaskResume)] ∧
      ∀ s ∈ visited Suspension.initial run, s.Agrees := by
  let events : List (Bool × RequestStep) := [(false, .setStatus), (true, .testStatus),
    (false, .vTaskSuspend), (true, .clearStatus), (true, .vTaskResume)]
  refine ⟨trace (fun s taken => s.step taken) Suspension.initial events, by decide, ?_⟩
  refine suspension_agrees (Run.of_trace (fun _ _ => True) (fun _ happens => happens) _ ?_)
    (by decide)
  exact fun _ _ => trivial

/-- A request to resume makes both its changes between those of a request to suspend: the task
stays suspended, and every later request to resume it is refused. -/
theorem resume_within_suspend_disagrees :
    ∃ run : List ((Bool × RequestStep) × Suspension Bool),
      Run (fun s taken after => s.step taken = some after) Suspension.initial run ∧
      run.map Prod.fst = [(false, .setStatus), (true, .testStatus), (true, .clearStatus),
        (true, .vTaskResume), (false, .vTaskSuspend)] ∧
      ∃ s ∈ visited Suspension.initial run, s.Quiet ∧ s.taskSuspended = true ∧
        s.statusSet = false ∧ ¬s.Agrees := by
  let events : List (Bool × RequestStep) := [(false, .setStatus), (true, .testStatus),
    (true, .clearStatus), (true, .vTaskResume), (false, .vTaskSuspend)]
  let run := trace (fun s taken => s.step taken) Suspension.initial events
  let last := (visited Suspension.initial run).getLast (List.cons_ne_nil _ _)
  have quiet : last.Quiet := by decide
  have suspended : last.taskSuspended = true := by decide
  have clear : last.statusSet = false := by decide
  refine ⟨run, Run.of_trace (fun _ _ => True) (fun _ happens => happens) _ fun _ _ => trivial,
    by decide, last, List.getLast_mem _, quiet, suspended, clear, fun agrees => ?_⟩
  have same := (agrees quiet).1
  rw [suspended, clear] at same
  cases same

end MultiPython.Esp32
