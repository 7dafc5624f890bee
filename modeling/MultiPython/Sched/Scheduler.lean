import MultiPython.Logic.Run

/-!
# The scheduler

`py/scheduler.c` and `mp_keyboard_interrupt`: callbacks that interrupts schedule wait in a ring
until `mp_handle_pending` runs them, one at a time and only while nothing holds the scheduler
locked. An atomic section is one step, so between the sections of one piece of code any
number of interrupts run. Code that waits below an interrupt, a callback or a lock is a
stack of frames.
-/

namespace MultiPython.Sched

open Logic List Option Function

/-- `MICROPY_SCHEDULER_DEPTH`, with its static assertions. -/
structure SchedConfig where
  schedulerDepth : Nat
  fitsByte : schedulerDepth ≤ 255
  powerOfTwo : ∃ bits, schedulerDepth = 2 ^ bits

def mpSchedIdle : Int := 1

def mpSchedLocked : Int := -1

def mpSchedPending : Int := 0

/-- Store a value in `sched_state`, an `int16_t`. -/
def int16 (value : Int) : Int := value.bmod (2 ^ 16)

/-- `mp_sched_item_t`. -/
structure MpSchedItem (Obj : Type) where
  func : Obj
  arg : Obj
deriving DecidableEq, Repr

/-- The scheduler's part of `MP_STATE_VM`. -/
structure SchedVm (Obj : Type) where
  schedState : Int
  mpPendingException : Option Obj
  schedStack : Nat → MpSchedItem Obj
  schedIdx : Nat
  schedLen : Nat

variable {Obj : Type} (config : SchedConfig)

namespace SchedConfig

def idxMask (index : Nat) : Nat := index &&& (config.schedulerDepth - 1)

theorem idxMask_eq (index : Nat) : config.idxMask index = index % config.schedulerDepth := by
  obtain ⟨bits, isPower⟩ := config.powerOfTwo
  rw [idxMask, isPower, Nat.and_two_pow_sub_one_eq_mod]

theorem schedulerDepth_pos : 0 < config.schedulerDepth := by
  obtain ⟨bits, isPower⟩ := config.powerOfTwo
  rw [isPower]
  exact Nat.two_pow_pos bits

end SchedConfig

namespace SchedVm

variable (vm : SchedVm Obj)

/-- The scheduler as `mp_init` leaves it. -/
def initial (unused : Obj) : SchedVm Obj where
  schedState := mpSchedIdle
  mpPendingException := none
  schedStack := fun _ => ⟨unused, unused⟩
  schedIdx := 0
  schedLen := 0

def mpSchedNumPending : Nat := vm.schedLen

def mpSchedFull : Bool := vm.mpSchedNumPending == config.schedulerDepth

def mpSchedEmpty : Bool := vm.mpSchedNumPending == 0

def mpSchedLock : SchedVm Obj :=
  if vm.schedState < 0 then
    { vm with schedState := int16 (vm.schedState - 1) }
  else
    { vm with schedState := mpSchedLocked }

def mpSchedUnlock : SchedVm Obj :=
  let state := int16 (vm.schedState + 1)
  if state = 0 then
    if vm.mpPendingException.isSome || vm.mpSchedNumPending ≠ 0 then
      { vm with schedState := mpSchedPending }
    else
      { vm with schedState := mpSchedIdle }
  else
    { vm with schedState := state }

def mpSchedSchedule (item : MpSchedItem Obj) : Bool × SchedVm Obj :=
  if vm.mpSchedFull config then
    (false, vm)
  else
    let iput := config.idxMask (vm.schedIdx + vm.schedLen) % 256
    (true,
      { vm with
        schedState := if vm.schedState = mpSchedIdle then mpSchedPending else vm.schedState
        schedStack := Function.update vm.schedStack iput item
        schedLen := (vm.schedLen + 1) % 256 })

def mpKeyboardInterrupt (mpKbdException : Obj) : SchedVm Obj :=
  { vm with
    mpPendingException := some mpKbdException
    schedState := if vm.schedState = mpSchedIdle then mpSchedPending else vm.schedState }

/-- How the atomic section of `mp_handle_pending` ends. -/
inductive Handled (Obj : Type) where
  /-- `nlr_raise`. -/
  | raises (exception : Obj)
  /-- Call the function of an item, then unlock. -/
  | calls (item : MpSchedItem Obj)
  /-- Unlock. -/
  | unlocks

/-- The atomic section of `mp_handle_pending` and `mp_handle_pending_tail`, and of their variant
in the virtual machine. -/
def mpHandlePending : Handled Obj × SchedVm Obj :=
  match vm.mpPendingException with
  | some exception =>
    (.raises exception,
      { vm with
        mpPendingException := none
        schedState := if vm.mpSchedNumPending = 0 then mpSchedIdle else vm.schedState })
  | none =>
    if vm.mpSchedEmpty then
      (.unlocks, { vm with schedState := mpSchedLocked })
    else
      (.calls (vm.schedStack vm.schedIdx),
        { vm with
          schedState := mpSchedLocked
          schedIdx := config.idxMask (vm.schedIdx + 1) % 256
          schedLen := (vm.schedLen + 255) % 256 })

end SchedVm

/-- The items in a ring from an index on. -/
def ringItems {Item : Type} (depth : Nat) (stack : Nat → Item) (idx len : Nat) : List Item :=
  (List.range len).map fun offset => stack ((idx + offset) % depth)

/-- The items in the ring, the oldest one first. -/
def SchedVm.entries (vm : SchedVm Obj) : List (MpSchedItem Obj) :=
  ringItems config.schedulerDepth vm.schedStack vm.schedIdx vm.schedLen

/-- What code waits for the code above it to return. -/
inductive Frame (Obj : Type) where
  /-- `mp_handle_pending` has seen `MP_SCHED_PENDING`, and its atomic section is next. -/
  | checked
  /-- `mp_handle_pending_tail` calls a function. -/
  | calling (item : MpSchedItem Obj)
  /-- The unlocking in `mp_handle_pending_tail` is next. -/
  | unlocking
  /-- A lock is held between `mp_sched_lock` and `mp_sched_unlock`. -/
  | locked
deriving DecidableEq, Repr

/-- The frame keeps the scheduler locked. -/
def Frame.holds : Frame Obj → Bool
  | .checked => false
  | .calling _ | .unlocking | .locked => true

/-- The scheduler, the code that uses it, and what has been scheduled and started so far. -/
structure Scheduler (Obj : Type) where
  vm : SchedVm Obj
  frames : List (Frame Obj)
  scheduled : List (MpSchedItem Obj)
  started : List (MpSchedItem Obj)

/-- What happens next. -/
inductive SchedEvent (Obj : Type) where
  | schedule (item : MpSchedItem Obj)
  | keyboardInterrupt (mpKbdException : Obj)
  /-- The check in front of the atomic section of `mp_handle_pending`. -/
  | check
  /-- The atomic section of `mp_handle_pending`. -/
  | handle
  /-- The function that `mp_handle_pending_tail` called returns. -/
  | return_
  | lock
  | unlock
deriving DecidableEq, Repr

namespace Scheduler

variable (s : Scheduler Obj)

/-- Nothing is scheduled, and the code is at its outermost level. -/
def initial (unused : Obj) : Scheduler Obj := ⟨.initial unused, [], [], []⟩

/-- The next state. Only interrupts run between the check and the atomic section of
`mp_handle_pending`, and they do not call it. -/
def step : SchedEvent Obj → Option (Scheduler Obj)
  | .schedule item =>
    let (accepted, vm) := s.vm.mpSchedSchedule config item
    some { s with vm, scheduled := if accepted then s.scheduled ++ [item] else s.scheduled }
  | .keyboardInterrupt mpKbdException =>
    some { s with vm := s.vm.mpKeyboardInterrupt mpKbdException }
  | .check =>
    match s.frames with
    | .checked :: _ => none
    | frames =>
      if s.vm.schedState = mpSchedPending then some { s with frames := .checked :: frames }
      else some s
  | .handle =>
    match s.frames with
    | .checked :: below =>
      match s.vm.mpHandlePending config with
      | (.raises _, vm) => some { s with vm, frames := below }
      | (.calls item, vm) =>
        some { s with vm, frames := .calling item :: below, started := s.started ++ [item] }
      | (.unlocks, vm) => some { s with vm, frames := .unlocking :: below }
    | _ => none
  | .return_ =>
    match s.frames with
    | .calling _ :: below => some { s with frames := .unlocking :: below }
    | _ => none
  | .lock => some { s with vm := s.vm.mpSchedLock, frames := .locked :: s.frames }
  | .unlock =>
    match s.frames with
    | .locked :: below | .unlocking :: below =>
      some { s with vm := s.vm.mpSchedUnlock, frames := below }
    | _ => none

/-- How many locks are held. -/
def lockDepth : Nat := s.frames.countP Frame.holds

/-- The items that are scheduled and not started yet. -/
def waiting : List (MpSchedItem Obj) := s.scheduled.drop s.started.length

/-- A lock is taken only while fewer than 2^15 are held. -/
def HasRoom : SchedEvent Obj → Prop
  | .lock => s.lockDepth < 2 ^ 15
  | _ => True

/-- What the scheduler promises in a state: callbacks start in the order in which they were
scheduled, each once; `mp_sched_schedule` refuses exactly when the ring is full; no callback is
started while a lock is held; the state counts the locks; and whatever waits while no lock is
held is pending. -/
structure Sound : Prop where
  fifo : s.scheduled = s.started ++ s.waiting
  refuses : ∀ item, (s.vm.mpSchedSchedule config item).1 = false ↔
    s.waiting.length = config.schedulerDepth
  startsUnlocked : ∀ next, s.step config .handle = some next → next.started ≠ s.started →
    s.lockDepth = 0
  counts : 0 < s.lockDepth → s.vm.schedState = -s.lockDepth
  pending : s.lockDepth = 0 → s.waiting ≠ [] ∨ s.vm.mpPendingException.isSome →
    s.vm.schedState = mpSchedPending

end Scheduler

section Ring

variable {Item : Type} {depth idx len : Nat} {stack : Nat → Item}

@[simp]
theorem length_ringItems : (ringItems depth stack idx len).length = len := by
  simp [ringItems]

theorem place_ne {first second : Nat} (firstShort : first < depth) (secondShort : second < depth)
    (differ : first ≠ second) : (idx + first) % depth ≠ (idx + second) % depth := by
  intro same
  have congruent : first ≡ second [MOD depth] := Nat.ModEq.add_left_cancel' idx same
  exact differ (congruent.eq_of_lt_of_lt firstShort secondShort)

theorem ringItems_push (room : len < depth) (item : Item) :
    ringItems depth (Function.update stack ((idx + len) % depth) item) idx (len + 1) =
      ringItems depth stack idx len ++ [item] := by
  rw [ringItems, range_succ, map_append, map_singleton, update_self,
    ringItems]
  congr 1
  refine map_congr_left fun offset member => ?_
  have short := mem_range.mp member
  exact update_of_ne (place_ne (by omega) room (by omega)) _ _

theorem ringItems_pop (inside : idx < depth) :
    ringItems depth stack idx (len + 1) =
      stack idx :: ringItems depth stack ((idx + 1) % depth) len := by
  rw [ringItems, range_succ_eq_map, map_cons, List.map_map, Nat.add_zero,
    Nat.mod_eq_of_lt inside, ringItems]
  congr 1
  refine map_congr_left fun offset _ => ?_
  rw [comp_apply, Nat.mod_add_mod, Nat.succ_eq_add_one, Nat.add_assoc,
    Nat.add_comm 1 offset]

end Ring

section Calls

variable {config} {vm : SchedVm Obj}

theorem mpSchedSchedule_spec {item : MpSchedItem Obj} {accepted : Bool} {after : SchedVm Obj}
    (called : vm.mpSchedSchedule config item = (accepted, after))
    (inside : vm.schedLen ≤ config.schedulerDepth) :
    (accepted = false ↔ vm.schedLen = config.schedulerDepth) ∧
      after.schedIdx = vm.schedIdx ∧ after.schedLen ≤ config.schedulerDepth ∧
      after.entries config = vm.entries config ++ (if accepted then [item] else []) ∧
      after.schedState =
        if accepted ∧ vm.schedState = mpSchedIdle then mpSchedPending else vm.schedState := by
  have fitsByte := config.fitsByte
  unfold SchedVm.mpSchedSchedule SchedVm.mpSchedFull SchedVm.mpSchedNumPending at called
  by_cases full : vm.schedLen = config.schedulerDepth
  · rw [if_pos (by simpa using full), Prod.mk.injEq] at called
    obtain ⟨rfl, rfl⟩ := called
    simp [full]
  · have room : vm.schedLen < config.schedulerDepth := by omega
    have placed := Nat.mod_lt (vm.schedIdx + vm.schedLen) config.schedulerDepth_pos
    have iput : (vm.schedIdx + vm.schedLen) % config.schedulerDepth % 256 =
        (vm.schedIdx + vm.schedLen) % config.schedulerDepth := Nat.mod_eq_of_lt (by omega)
    have len : (vm.schedLen + 1) % 256 = vm.schedLen + 1 := Nat.mod_eq_of_lt (by omega)
    rw [if_neg (by simpa using full), Prod.mk.injEq] at called
    obtain ⟨rfl, rfl⟩ := called
    simp only [config.idxMask_eq, iput, len, true_and, if_true]
    exact ⟨by simpa using full, room, ringItems_push room item, trivial⟩

/-- The atomic section of `mp_handle_pending` raises what is pending, or takes the oldest item. -/
theorem mpHandlePending_spec {handled : SchedVm.Handled Obj} {after : SchedVm Obj}
    (called : vm.mpHandlePending config = (handled, after))
    (inside : vm.schedLen ≤ config.schedulerDepth) (index : vm.schedIdx < config.schedulerDepth) :
    match handled with
    | .raises exception =>
      vm.mpPendingException = some exception ∧
        after = { vm with
          mpPendingException := none
          schedState := if vm.schedLen = 0 then mpSchedIdle else vm.schedState }
    | .unlocks => after = { vm with schedState := mpSchedLocked }
    | .calls item =>
      vm.entries config = item :: after.entries config ∧
        after.schedState = mpSchedLocked ∧ after.schedIdx < config.schedulerDepth ∧
        after.schedLen ≤ config.schedulerDepth := by
  have fitsByte := config.fitsByte
  unfold SchedVm.mpHandlePending SchedVm.mpSchedEmpty SchedVm.mpSchedNumPending at called
  cases pending : vm.mpPendingException with
  | some exception =>
    simp only [pending, Prod.mk.injEq] at called
    obtain ⟨rfl, rfl⟩ := called
    exact ⟨rfl, rfl⟩
  | none =>
    simp only [pending] at called
    by_cases empty : vm.schedLen = 0
    · rw [if_pos (by simpa using empty), Prod.mk.injEq] at called
      obtain ⟨rfl, rfl⟩ := called
      rfl
    · obtain ⟨fewer, isSucc⟩ := Nat.exists_eq_add_one_of_ne_zero empty
      have placed := Nat.mod_lt (vm.schedIdx + 1) config.schedulerDepth_pos
      have next : (vm.schedIdx + 1) % config.schedulerDepth % 256 =
          (vm.schedIdx + 1) % config.schedulerDepth := Nat.mod_eq_of_lt (by omega)
      have len : (vm.schedLen + 255) % 256 = fewer := by omega
      rw [if_neg (by simpa using empty), Prod.mk.injEq] at called
      obtain ⟨rfl, rfl⟩ := called
      simp only [config.idxMask_eq, next, len]
      refine ⟨?_, trivial, placed, by omega⟩
      rw [SchedVm.entries, SchedVm.entries, isSucc]
      exact ringItems_pop index

end Calls

section Steps

variable {config} {s next : Scheduler Obj}

/-- The invariant of the scheduler: the ring holds what waits, `sched_state` counts the locks or
says whether anything waits, and nothing is locked below a frame that has seen
`MP_SCHED_PENDING`. -/
structure Ordered (config : SchedConfig) (s : Scheduler Obj) : Prop where
  idx : s.vm.schedIdx < config.schedulerDepth
  len : s.vm.schedLen ≤ config.schedulerDepth
  fifo : s.scheduled = s.started ++ s.vm.entries config
  locked : 0 < s.lockDepth → s.vm.schedState = -s.lockDepth
  unlocked : s.lockDepth = 0 → s.vm.schedState = mpSchedPending ∨
    s.vm.schedState = mpSchedIdle ∧ s.vm.schedLen = 0 ∧ s.vm.mpPendingException = none
  checked : ∀ below, (.checked :: below) <:+ s.frames → below.countP Frame.holds = 0
  bounded : s.lockDepth ≤ 2 ^ 15

theorem int16_of_small {value : Int} (above : -2 ^ 15 ≤ value) (below : value < 2 ^ 15) :
    int16 value = value :=
  Int.bmod_eq_of_le (by omega) (by omega)

theorem Ordered.waiting_eq (ordered : Ordered config s) : s.waiting = s.vm.entries config := by
  rw [Scheduler.waiting, ordered.fifo, drop_left]

theorem handle_frames (stepped : s.step config .handle = some next) :
    ∃ below, s.frames = .checked :: below := by
  unfold Scheduler.step at stepped
  cases frames : s.frames with
  | nil => simp [frames] at stepped
  | cons frame below =>
    cases frame with
    | checked => exact ⟨below, rfl⟩
    | calling item => simp [frames] at stepped
    | unlocking => simp [frames] at stepped
    | locked => simp [frames] at stepped

theorem Ordered.sound (ordered : Ordered config s) : s.Sound config where
  fifo := by rw [ordered.waiting_eq, ordered.fifo]
  refuses := by
    intro item
    rw [ordered.waiting_eq, SchedVm.entries, length_ringItems]
    exact (mpSchedSchedule_spec rfl ordered.len).1
  startsUnlocked := by
    intro next stepped starts
    obtain ⟨below, frames⟩ := handle_frames stepped
    have nothing := ordered.checked below (by rw [frames])
    rw [Scheduler.lockDepth, frames, countP_cons_of_neg (by simp [Frame.holds]), nothing]
  counts := ordered.locked
  pending := by
    intro free waits
    rcases ordered.unlocked free with pending | ⟨_, empty, noException⟩
    · exact pending
    · rw [ordered.waiting_eq, ← length_pos_iff, SchedVm.entries, length_ringItems, empty,
        noException] at waits
      simp at waits

theorem Scheduler.initial_ordered (unused : Obj) :
    Ordered config (Scheduler.initial unused) where
  idx := config.schedulerDepth_pos
  len := Nat.zero_le _
  fifo := rfl
  locked := fun positive => absurd positive (by simp [Scheduler.lockDepth, Scheduler.initial])
  unlocked := fun _ => Or.inr ⟨rfl, rfl, rfl⟩
  checked := by
    intro below suffix
    cases suffix_nil.mp suffix
  bounded := by simp [Scheduler.lockDepth, Scheduler.initial]

section

variable (ordered : Ordered config s)

include ordered

theorem Ordered.lock (room : s.lockDepth < 2 ^ 15) :
    s.vm.mpSchedLock.schedState = -(s.lockDepth + 1 : Nat) := by
  unfold SchedVm.mpSchedLock
  rcases Nat.eq_zero_or_pos s.lockDepth with free | held
  · have notNegative : ¬s.vm.schedState < 0 := by
      rcases ordered.unlocked free with pending | ⟨idle, -⟩
      · rw [pending, mpSchedPending]
        omega
      · rw [idle, mpSchedIdle]
        omega
    rw [if_neg notNegative, free]
    rfl
  · have counts := ordered.locked held
    rw [if_pos (by omega)]
    change int16 (s.vm.schedState - 1) = _
    rw [int16_of_small (by omega) (by omega)]
    omega

theorem Ordered.unlock {fewer : Nat} (held : s.lockDepth = fewer + 1) :
    (0 < fewer → s.vm.mpSchedUnlock.schedState = -fewer) ∧
      (fewer = 0 → s.vm.mpSchedUnlock.schedState = mpSchedPending ∨
        s.vm.mpSchedUnlock.schedState = mpSchedIdle ∧ s.vm.schedLen = 0 ∧
          s.vm.mpPendingException = none) := by
  have counts := ordered.locked (by omega)
  have bounded := ordered.bounded
  have exact : int16 (s.vm.schedState + 1) = -fewer := by
    rw [int16_of_small (by omega) (by omega)]
    omega
  unfold SchedVm.mpSchedUnlock SchedVm.mpSchedNumPending
  simp only [exact]
  constructor
  · intro more
    rw [if_neg (by omega)]
  · rintro rfl
    rw [if_pos (by omega)]
    split_ifs with waits
    · exact .inl rfl
    · refine .inr ⟨rfl, ?_⟩
      simpa [not_or, and_comm] using waits

theorem Ordered.schedule {item : MpSchedItem Obj}
    (stepped : s.step config (.schedule item) = some next) : Ordered config next := by
  cases called : s.vm.mpSchedSchedule config item with
  | mk accepted after =>
    obtain ⟨answered, idx, len, entries, state⟩ := mpSchedSchedule_spec called ordered.len
    simp only [Scheduler.step, called, some.injEq] at stepped
    subst stepped
    refine ⟨idx ▸ ordered.idx, len, ?_, fun held => ?_, fun free => ?_, ordered.checked,
      ordered.bounded⟩
    · change _ = s.started ++ after.entries config
      rw [entries, ← append_assoc, ← ordered.fifo]
      cases accepted <;> simp
    · have held : 0 < s.lockDepth := held
      have counts : s.vm.schedState = -s.lockDepth := ordered.locked held
      change after.schedState = -s.lockDepth
      rw [state, if_neg (by rw [counts, mpSchedIdle]; omega), counts]
    · change after.schedState = _ ∨ after.schedState = _ ∧ _
      rcases ordered.unlocked free with pending | ⟨idle, empty, -⟩
      · rw [state, pending, if_neg (by simp [mpSchedPending, mpSchedIdle])]
        exact .inl rfl
      · have positive := config.schedulerDepth_pos
        have accepts : accepted = true := by
          rw [← Bool.not_eq_false, answered, empty]
          omega
        rw [state, if_pos ⟨accepts, idle⟩]
        exact .inl rfl

theorem Ordered.keyboardInterrupt {mpKbdException : Obj}
    (stepped : s.step config (.keyboardInterrupt mpKbdException) = some next) :
    Ordered config next := by
  simp only [Scheduler.step, SchedVm.mpKeyboardInterrupt, some.injEq] at stepped
  subst stepped
  refine ⟨ordered.idx, ordered.len, ordered.fifo, fun held => ?_, fun free => ?_,
    ordered.checked, ordered.bounded⟩
  · have held : 0 < s.lockDepth := held
    have counts : s.vm.schedState = -s.lockDepth := ordered.locked held
    change (if s.vm.schedState = mpSchedIdle then mpSchedPending else s.vm.schedState) =
      -s.lockDepth
    rw [if_neg (by rw [counts, mpSchedIdle]; omega), counts]
  · left
    change (if s.vm.schedState = mpSchedIdle then mpSchedPending else s.vm.schedState) =
      mpSchedPending
    rcases ordered.unlocked free with pending | ⟨idle, -, -⟩
    · rw [pending, if_neg (by simp [mpSchedPending, mpSchedIdle])]
    · rw [if_pos idle]

theorem Ordered.check (stepped : s.step config .check = some next) : Ordered config next := by
  simp only [Scheduler.step] at stepped
  split at stepped
  · cases stepped
  · split_ifs at stepped with pending
    · obtain rfl := some.inj stepped
      have free : s.lockDepth = 0 := by
        by_contra held
        have counts := ordered.locked (Nat.pos_of_ne_zero held)
        rw [pending, mpSchedPending] at counts
        omega
      refine ⟨ordered.idx, ordered.len, ordered.fifo, fun held => ?_, fun _ => .inl pending, ?_,
        ordered.bounded⟩
      · have held : 0 < s.lockDepth := held
        omega
      · intro below suffix
        rcases suffix_cons_iff.mp suffix with same | older
        · obtain ⟨-, rfl⟩ := List.cons.inj same
          exact free
        · exact ordered.checked below older
    · obtain rfl := some.inj stepped
      exact ordered

/-- The atomic section of `mp_handle_pending` keeps the invariant. -/
theorem Ordered.handle (stepped : s.step config .handle = some next) : Ordered config next := by
  obtain ⟨below, frames⟩ := handle_frames stepped
  have free : below.countP Frame.holds = 0 := ordered.checked below (by rw [frames])
  have older : ∀ deeper, (.checked :: deeper) <:+ below → deeper.countP Frame.holds = 0 := by
    intro deeper suffix
    refine ordered.checked deeper ?_
    rw [frames]
    exact suffix.trans (suffix_cons _ _)
  have newer (frame : Frame Obj) (other : frame ≠ .checked) :
      ∀ deeper, (.checked :: deeper) <:+ frame :: below → deeper.countP Frame.holds = 0 := by
    intro deeper suffix
    rcases suffix_cons_iff.mp suffix with same | deep
    · exact absurd (List.cons.inj same).1.symm other
    · exact older deeper deep
  have unlocked := ordered.unlocked
    (by rw [Scheduler.lockDepth, frames, countP_cons_of_neg (by simp [Frame.holds]), free])
  cases called : s.vm.mpHandlePending config with
  | mk handled after =>
    have spec := mpHandlePending_spec called ordered.len ordered.idx
    simp only [Scheduler.step, frames, called] at stepped
    cases handled with
    | raises exception =>
      obtain ⟨waited, rfl⟩ := spec
      obtain rfl := some.inj stepped
      refine ⟨ordered.idx, ordered.len, ordered.fifo, fun held => ?_, fun _ => ?_, older, ?_⟩
      · exact absurd held (by simp [Scheduler.lockDepth, free])
      · by_cases empty : s.vm.schedLen = 0
        · exact .inr ⟨if_pos empty, empty, rfl⟩
        · refine .inl ((if_neg empty).trans ?_)
          exact unlocked.resolve_right fun idle => empty idle.2.1
      · simp [Scheduler.lockDepth, free]
    | calls item =>
      obtain ⟨entries, state, idx, len⟩ := spec
      obtain rfl := some.inj stepped
      have depth : (Frame.calling item :: below).countP Frame.holds = 1 := by
        rw [countP_cons_of_pos (by simp [Frame.holds]), free]
      refine ⟨idx, len, ?_, fun _ => ?_, fun none => ?_, newer _ (by simp), ?_⟩
      · change s.scheduled = (s.started ++ [item]) ++ after.entries config
        rw [ordered.fifo, entries, append_assoc, singleton_append]
      · rw [Scheduler.lockDepth, depth]
        exact state
      · exact absurd (depth.symm.trans none) (by decide)
      · rw [Scheduler.lockDepth, depth]
        omega
    | unlocks =>
      have spec : after = { s.vm with schedState := mpSchedLocked } := spec
      subst spec
      obtain rfl := some.inj stepped
      have depth : (Frame.unlocking :: below : List (Frame Obj)).countP Frame.holds = 1 := by
        rw [countP_cons_of_pos (by simp [Frame.holds]), free]
      refine ⟨ordered.idx, ordered.len, ordered.fifo, fun _ => ?_, fun none => ?_,
        newer _ (by simp), ?_⟩
      · rw [Scheduler.lockDepth, depth]
        rfl
      · exact absurd (depth.symm.trans none) (by decide)
      · rw [Scheduler.lockDepth, depth]
        omega

theorem Ordered.return_ (stepped : s.step config .return_ = some next) : Ordered config next := by
  simp only [Scheduler.step] at stepped
  split at stepped
  · rename_i item below frames
    obtain rfl := some.inj stepped
    have depth : s.lockDepth = (Frame.unlocking :: below).countP Frame.holds := by
      rw [Scheduler.lockDepth, frames]
      rfl
    have locked := ordered.locked
    have unlocked := ordered.unlocked
    have bounded := ordered.bounded
    rw [depth] at locked unlocked bounded
    refine ⟨ordered.idx, ordered.len, ordered.fifo, locked, unlocked, ?_, bounded⟩
    · intro deeper suffix
      rcases suffix_cons_iff.mp suffix with same | deep
      · cases (List.cons.inj same).1
      · refine ordered.checked deeper ?_
        rw [frames]
        exact deep.trans (suffix_cons _ _)
  · cases stepped

theorem Ordered.takeLock (room : s.lockDepth < 2 ^ 15) (stepped : s.step config .lock = some next) :
    Ordered config next := by
  have counts := ordered.lock room
  obtain rfl := some.inj stepped
  have depth : (Frame.locked :: s.frames).countP Frame.holds = s.lockDepth + 1 :=
    countP_cons_of_pos (by simp [Frame.holds])
  have same : s.vm.mpSchedLock = { s.vm with schedState := -(s.lockDepth + 1 : Nat) } := by
    rw [← counts]
    unfold SchedVm.mpSchedLock
    split_ifs <;> rfl
  refine ⟨?_, ?_, ?_, fun _ => ?_, fun none => ?_, ?_, ?_⟩
  · rw [same]
    exact ordered.idx
  · rw [same]
    exact ordered.len
  · rw [same]
    exact ordered.fifo
  · rw [Scheduler.lockDepth, depth]
    exact counts
  · rw [Scheduler.lockDepth, depth] at none
    omega
  · intro deeper suffix
    rcases suffix_cons_iff.mp suffix with same | deep
    · cases (List.cons.inj same).1
    · exact ordered.checked deeper deep
  · rw [Scheduler.lockDepth, depth]
    omega

/-- Giving back a lock keeps the invariant. -/
theorem Ordered.giveLock (stepped : s.step config .unlock = some next) : Ordered config next := by
  obtain ⟨frame, below, frames, holds, rfl⟩ : ∃ frame below, s.frames = frame :: below ∧
      frame.holds = true ∧ next = { s with vm := s.vm.mpSchedUnlock, frames := below } := by
    simp only [Scheduler.step] at stepped
    split at stepped
    · exact ⟨_, _, by assumption, rfl, (some.inj stepped).symm⟩
    · exact ⟨_, _, by assumption, rfl, (some.inj stepped).symm⟩
    · cases stepped
  have depth : s.lockDepth = below.countP Frame.holds + 1 := by
    rw [Scheduler.lockDepth, frames, countP_cons_of_pos holds]
  obtain ⟨held, free⟩ := ordered.unlock depth
  have same : s.vm.mpSchedUnlock = { s.vm with schedState := s.vm.mpSchedUnlock.schedState } := by
    unfold SchedVm.mpSchedUnlock
    dsimp only
    split_ifs <;> rfl
  have bounded := ordered.bounded
  refine ⟨?_, ?_, ?_, held, fun none => ?_, ?_, ?_⟩
  · rw [same]
    exact ordered.idx
  · rw [same]
    exact ordered.len
  · rw [same]
    exact ordered.fifo
  · rcases free none with pending | ⟨idle, empty, noException⟩
    · exact .inl pending
    · refine .inr ⟨idle, ?_, ?_⟩
      · rw [same]
        exact empty
      · rw [same]
        exact noException
  · intro deeper suffix
    refine ordered.checked deeper ?_
    rw [frames]
    exact suffix.trans (suffix_cons _ _)
  · change below.countP Frame.holds ≤ 2 ^ 15
    omega

theorem Ordered.step {event : SchedEvent Obj} (room : s.HasRoom event)
    (stepped : s.step config event = some next) :
    Ordered config next := by
  cases event with
  | schedule item => exact ordered.schedule stepped
  | keyboardInterrupt mpKbdException => exact ordered.keyboardInterrupt stepped
  | check => exact ordered.check stepped
  | handle => exact ordered.handle stepped
  | return_ => exact ordered.return_ stepped
  | lock => exact ordered.takeLock room stepped
  | unlock => exact ordered.giveLock stepped

end

/-- In every interleaving in which no lock is taken while 2^15 are held, the scheduler keeps its
promises. -/
theorem scheduler_sound {unused : Obj} {run : List (SchedEvent Obj × Scheduler Obj)}
    (runs : Run (fun s event next => s.step config event = some next)
      (Scheduler.initial unused) run)
    (room : ∀ taken ∈ fired (Scheduler.initial unused) run, taken.1.HasRoom taken.2) :
    ∀ s ∈ visited (Scheduler.initial unused) run, s.Sound config := by
  intro s member
  exact (runs.invariant_of_fired (Ordered config) Scheduler.HasRoom
    (Scheduler.initial_ordered unused)
    (fun ordered hasRoom stepped => ordered.step hasRoom stepped) room s member).sound

end Steps

/-- The depth that the ports for microcontrollers choose. -/
def depthEight : SchedConfig := ⟨8, by decide, 3, rfl⟩

instance (s : Scheduler Nat) (event : SchedEvent Nat) : Decidable (s.HasRoom event) :=
  match event with
  | .lock => inferInstanceAs (Decidable (s.lockDepth < 2 ^ 15))
  | .schedule _ | .keyboardInterrupt _ | .check | .handle | .return_ | .unlock => .isTrue trivial

/-- A callback is scheduled while a lock is held, and runs when the lock is given back. -/
theorem scheduler_sound_callback :
    ∃ run : List (SchedEvent Nat × Scheduler Nat),
      run.map Prod.fst = [.lock, .schedule ⟨1, 2⟩, .unlock, .check, .keyboardInterrupt 3, .handle,
        .check, .handle, .return_, .unlock] ∧
      ∀ s ∈ visited (Scheduler.initial 0) run, s.Sound depthEight := by
  let events : List (SchedEvent Nat) := [.lock, .schedule ⟨1, 2⟩, .unlock, .check,
    .keyboardInterrupt 3, .handle, .check, .handle, .return_, .unlock]
  refine ⟨trace (fun s event => s.step depthEight event) (Scheduler.initial 0) events,
    by decide, ?_⟩
  refine scheduler_sound (Run.of_trace (fun _ _ => True) (fun _ happens => happens) _ ?_)
    (by decide)
  exact fun _ _ => trivial

section Overflow

variable {config} {s : Scheduler Obj}

/-- Take a number of locks. -/
def Scheduler.takeLocks : Nat → Scheduler Obj → Scheduler Obj
  | 0, s => s
  | count + 1, s =>
    takeLocks count { s with vm := s.vm.mpSchedLock, frames := .locked :: s.frames }

/-- What a run reaches after some locks, a run reaches that takes them first. -/
theorem exists_run_takeLocks {reached : Scheduler Obj → Prop} (count : Nat)
    (later : ∃ run, Run (fun s event next => s.step config event = some next)
      (s.takeLocks count) run ∧ ∃ t ∈ visited (s.takeLocks count) run, reached t) :
    ∃ run, Run (fun s event next => s.step config event = some next) s run ∧
      ∃ t ∈ visited s run, reached t := by
  induction count generalizing s with
  | zero => exact later
  | succ count ih =>
    obtain ⟨run, runs, t, member, isReached⟩ := ih later
    exact ⟨(.lock, _) :: run, .cons rfl runs, t, mem_cons_of_mem _ member, isReached⟩

theorem takeLocks_eq (count : Nat) {held : Nat} (positive : 0 < held)
    (state : s.vm.schedState = -held) (fits : held + count ≤ 2 ^ 15) :
    s.takeLocks count =
      { s with
        vm := { s.vm with schedState := -(held + count : Nat) }
        frames := List.replicate count .locked ++ s.frames } := by
  induction count generalizing s held with
  | zero => simp [Scheduler.takeLocks, ← state]
  | succ count ih =>
    have locked : s.vm.mpSchedLock = { s.vm with schedState := -(held + 1 : Nat) } := by
      unfold SchedVm.mpSchedLock
      rw [if_pos (by omega), int16_of_small (by omega) (by omega), state]
      congr 1
      omega
    have counts : held + (count + 1) = held.succ + count := by omega
    rw [Scheduler.takeLocks, locked, ih (Nat.succ_pos held) rfl (by omega),
      replicate_succ', append_assoc, singleton_append, counts]

end Overflow

/-- The lock after 2^15 others makes the count positive, the one after it starts at one again: when
that one is given back, a callback starts though all the others are still held. -/
theorem callback_starts_locked :
    ∃ run : List (SchedEvent Nat × Scheduler Nat),
      Run (fun s event next => s.step depthEight event = some next) (Scheduler.initial 0) run ∧
      ∃ s ∈ visited (Scheduler.initial 0) run, 0 < s.lockDepth ∧
        (∃ next, s.step depthEight .handle = some next ∧ next.started = [⟨1, 2⟩]) ∧
        ¬s.Sound depthEight := by
  let item : MpSchedItem Nat := ⟨1, 2⟩
  let stack : Nat → MpSchedItem Nat := Function.update (fun _ => ⟨0, 0⟩) 0 item
  let deep (state : Int) (frames : List (Frame Nat)) : Scheduler Nat :=
    ⟨⟨state, none, stack, 0, 1⟩, frames, [item], []⟩
  -- Two more locks on top of 2^15, of which one is given back.
  have overflows (below : List (Frame Nat)) :
      ∃ run, Run (fun s event next => s.step depthEight event = some next)
        (deep (-2 ^ 15) below) run ∧
        ∃ s ∈ visited (deep (-2 ^ 15) below) run, s = deep 0 (.checked :: .locked :: below) :=
    ⟨[(.lock, deep 32767 (.locked :: below)), (.lock, deep (-1) (.locked :: .locked :: below)),
        (.unlock, deep 0 (.locked :: below)), (.check, deep 0 (.checked :: .locked :: below))],
      .cons rfl (.cons rfl (.cons rfl (.cons rfl .nil))), _, by simp [visited], rfl⟩
  have reached : (deep (-1) [.locked]).takeLocks (2 ^ 15 - 1) =
      deep (-2 ^ 15) (List.replicate (2 ^ 15 - 1) .locked ++ [.locked]) :=
    takeLocks_eq (2 ^ 15 - 1) Nat.one_pos rfl (by omega)
  obtain ⟨run, runs, s, member, rfl⟩ := exists_run_takeLocks (2 ^ 15 - 1)
    (by rw [reached]; exact overflows _)
  refine ⟨(.schedule item, deep 0 []) :: (.lock, deep (-1) [.locked]) :: run,
    .cons rfl (.cons rfl runs), _, mem_cons_of_mem _ (mem_cons_of_mem _ member), ?_⟩
  have held (below : List (Frame Nat)) : 0 < (deep 0 (.checked :: .locked :: below)).lockDepth :=
    countP_pos_iff.mpr ⟨.locked, mem_cons_of_mem _ mem_cons_self, rfl⟩
  refine ⟨held _, ⟨_, rfl, rfl⟩, fun sound => ?_⟩
  have free := sound.startsUnlocked _ rfl (by simp [deep])
  exact absurd free (held _).ne'

end MultiPython.Sched
