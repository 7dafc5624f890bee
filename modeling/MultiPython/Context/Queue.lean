import MultiPython.Logic.Ring

/-!
# The response queue of a context

`mp_response_queue_t` is a ring of `MP_RESPONSE_QUEUE_SIZE` cells, one of which
stays empty. Writing, reading and peeking are those of a FIFO queue of capacity
`MP_RESPONSE_QUEUE_SIZE - 1`; `mp_response_queue_available` is one short whenever
the write index has started again below the read index.
-/

namespace MultiPython.Context

open Logic List

variable {α : Type*}

def mpResponseQueueSize : Nat := 256

/-- `mp_response_queue_t`, for entries of any type. -/
structure MpResponseQueue (α : Type*) where
  buff : Nat → α
  rHead : Nat
  wHead : Nat

def mpResponseQueueAvailable (queue : MpResponseQueue α) : Nat :=
  if queue.rHead = queue.wHead then
    0
  else if queue.wHead > queue.rHead then
    queue.wHead - queue.rHead
  else
    queue.wHead + (mpResponseQueueSize - 1 - queue.rHead)

/-- `mp_response_queue_peek`: the return value, and the entry stored through the
`response` pointer. -/
def mpResponseQueuePeek (queue : MpResponseQueue α) : Nat × Option α :=
  if queue.rHead = queue.wHead then
    (0, none)
  else
    (1, some (queue.buff queue.rHead))

def mpResponseQueueRead (queue : MpResponseQueue α) : MpResponseQueue α × Nat × Option α :=
  if queue.rHead = queue.wHead then
    (queue, 0, none)
  else
    let next := queue.rHead + 1
    let next := if next ≥ mpResponseQueueSize then 0 else next
    ({ queue with rHead := next }, 1, some (queue.buff queue.rHead))

def mpResponseQueueWrite (queue : MpResponseQueue α) (response : α) : MpResponseQueue α × Nat :=
  let next := queue.wHead + 1
  let next := if next ≥ mpResponseQueueSize then 0 else next
  if next = queue.rHead then
    (queue, 0)
  else
    ({ queue with buff := Function.update queue.buff queue.wHead response, wHead := next }, 1)

/-! ## The queue as a FIFO -/

/-- The number of entries a queue can hold. -/
def fifoCapacity : Nat := mpResponseQueueSize - 1

/-- Write to a FIFO queue: add an entry unless the queue is full. -/
def fifoWrite (entries : List α) (response : α) : List α × Nat :=
  if entries.length < fifoCapacity then (entries ++ [response], 1) else (entries, 0)

theorem fifoWrite_eq_zero_iff (entries : List α) (response : α) :
    (fifoWrite entries response).2 = 0 ↔ fifoCapacity ≤ entries.length := by
  unfold fifoWrite
  by_cases room : entries.length < fifoCapacity
  · simp [room]
  · simp [room, Nat.not_lt.mp room]

/-- The queue holds these entries, oldest first. -/
def Holds (queue : MpResponseQueue α) (entries : List α) : Prop :=
  Ring.Represents mpResponseQueueSize queue.buff queue.rHead queue.wHead entries

/-- The entries that wait in a queue, oldest first. -/
def MpResponseQueue.contents (queue : MpResponseQueue α) : List α :=
  Ring.entriesBetween mpResponseQueueSize queue.buff queue.rHead queue.wHead

/-- Both indices of a queue are inside its buffer. -/
def MpResponseQueue.InRange (queue : MpResponseQueue α) : Prop :=
  queue.rHead < mpResponseQueueSize ∧ queue.wHead < mpResponseQueueSize

variable {queue : MpResponseQueue α}

theorem MpResponseQueue.InRange.holds (inRange : queue.InRange) : Holds queue queue.contents :=
  Ring.represents_entriesBetween queue.buff inRange.1 inRange.2

variable {entries : List α}

theorem Holds.contents_eq (holds : Holds queue entries) : queue.contents = entries :=
  Ring.Represents.entries_eq holds

theorem Holds.length_le (holds : Holds queue entries) : entries.length ≤ fifoCapacity := by
  have short : entries.length < mpResponseQueueSize := holds.short
  simp only [fifoCapacity]
  omega

theorem fifoWrite_eq_take (fits : entries.length ≤ fifoCapacity) (response : α) :
    (fifoWrite entries response).1 = (entries ++ [response]).take fifoCapacity := by
  unfold fifoWrite
  by_cases room : entries.length < fifoCapacity
  · rw [if_pos room, take_of_length_le (by simpa using room)]
  · have full : entries.length = fifoCapacity := by omega
    rw [if_neg room, ← full, take_left]

section Operations

variable {queue : MpResponseQueue α} {entries : List α} (holds : Holds queue entries)

include holds

theorem mpResponseQueuePeek_eq :
    mpResponseQueuePeek queue = (min 1 entries.length, entries.head?) := by
  unfold mpResponseQueuePeek
  by_cases empty : entries = []
  · simp [Ring.Represents.eq_iff holds, empty]
  · have positive := length_pos_iff.mpr empty
    rw [if_neg (mt (Ring.Represents.eq_iff holds).mp empty), Ring.Represents.head holds empty,
      Nat.min_eq_left positive]

theorem mpResponseQueueRead_eq :
    (mpResponseQueueRead queue).2 = (min 1 entries.length, entries.head?) ∧
      Holds (mpResponseQueueRead queue).1 entries.tail := by
  unfold mpResponseQueueRead
  by_cases empty : entries = []
  · subst empty
    simpa [Ring.Represents.eq_iff holds] using holds
  · have positive := length_pos_iff.mpr empty
    rw [if_neg (mt (Ring.Represents.eq_iff holds).mp empty)]
    refine ⟨?_, Ring.Represents.pop holds empty⟩
    rw [Ring.Represents.head holds empty, Nat.min_eq_left positive]

theorem mpResponseQueueWrite_eq (response : α) :
    (mpResponseQueueWrite queue response).2 = (fifoWrite entries response).2 ∧
      Holds (mpResponseQueueWrite queue response).1 (fifoWrite entries response).1 ∧
      (fifoCapacity ≤ entries.length → (mpResponseQueueWrite queue response).1 = queue) := by
  have short : entries.length < mpResponseQueueSize := holds.short
  have full := Ring.Represents.next_eq_iff holds
  unfold mpResponseQueueWrite fifoWrite fifoCapacity
  by_cases room : entries.length + 1 = mpResponseQueueSize
  · have stuck := full.mpr room
    rw [Ring.next] at stuck
    simp only [stuck, if_true]
    rw [if_neg (by omega)]
    exact ⟨rfl, holds, fun _ => trivial⟩
  · have moves := mt full.mp room
    have pushed := Ring.Represents.push holds (by omega) response
    rw [Ring.next] at moves pushed
    simp only [moves, if_false]
    rw [if_pos (by omega)]
    exact ⟨rfl, pushed, fun full => absurd full (by omega)⟩

/-- The number of entries is computed right exactly while the write index is not
below the read index. -/
theorem mpResponseQueueAvailable_eq_iff :
    mpResponseQueueAvailable queue = entries.length ↔ queue.rHead ≤ queue.wHead := by
  have inside : queue.rHead < mpResponseQueueSize := holds.inside
  have length := Ring.Represents.length_eq holds
  unfold mpResponseQueueAvailable
  split at length <;> split <;> try split
  all_goals omega

end Operations

/-! ## Sequences of operations -/

/-- An operation on a queue. -/
inductive QueueOp (α : Type*) where
  | write (response : α)
  | read
  | peek
deriving Repr

/-- Apply an operation; the reply is its return value and the entry it stores. -/
def queueStep (queue : MpResponseQueue α) : QueueOp α → MpResponseQueue α × Nat × Option α
  | .write response =>
    let (queue, stored) := mpResponseQueueWrite queue response
    (queue, stored, none)
  | .read => mpResponseQueueRead queue
  | .peek => (queue, mpResponseQueuePeek queue)

/-- The same on a FIFO queue of bounded capacity. -/
def fifoStep (entries : List α) : QueueOp α → List α × Nat × Option α
  | .write response =>
    let (entries, stored) := fifoWrite entries response
    (entries, stored, none)
  | .read => (entries.tail, min 1 entries.length, entries.head?)
  | .peek => (entries, min 1 entries.length, entries.head?)

/-- Apply operations in turn, collecting the replies. -/
def runOps {σ : Type*} (step : σ → QueueOp α → σ × Nat × Option α) :
    σ → List (QueueOp α) → σ × List (Nat × Option α)
  | state, [] => (state, [])
  | state, op :: rest =>
    let (state, reply) := step state op
    let (final, replies) := runOps step state rest
    (final, reply :: replies)

/-- An empty queue, as the zeroed memory of a new context has it. -/
def MpResponseQueue.empty (buff : Nat → α) : MpResponseQueue α := ⟨buff, 0, 0⟩

/-- The queue reached by some operations behaves as the FIFO queue that the same
operations lead to. -/
structure QueueRefines (buff : Nat → α) (ops : List (QueueOp α)) : Prop where
  /-- Reads and peeks return the entries in order, and writes fail when they should. -/
  replies : (runOps queueStep (.empty buff) ops).2 = (runOps fifoStep [] ops).2
  /-- A write fails exactly when the queue is full. -/
  full : ∀ response, (mpResponseQueueWrite (runOps queueStep (.empty buff) ops).1 response).2 = 0 ↔
    (runOps fifoStep [] ops).1.length = fifoCapacity
  /-- A write that fails changes nothing. -/
  unchanged : ∀ response,
    (mpResponseQueueWrite (runOps queueStep (.empty buff) ops).1 response).2 = 0 →
      (mpResponseQueueWrite (runOps queueStep (.empty buff) ops).1 response).1 =
        (runOps queueStep (.empty buff) ops).1
  /-- The number of entries is the number of those written and not yet read. -/
  available : mpResponseQueueAvailable (runOps queueStep (.empty buff) ops).1 =
    (runOps fifoStep [] ops).1.length

theorem queueStep_simulates (holds : Holds queue entries) (op : QueueOp α) :
    (queueStep queue op).2 = (fifoStep entries op).2 ∧
      Holds (queueStep queue op).1 (fifoStep entries op).1 := by
  cases op with
  | write response =>
    obtain ⟨stored, after, _⟩ := mpResponseQueueWrite_eq holds response
    exact ⟨congrArg (·, none) stored, after⟩
  | read => exact mpResponseQueueRead_eq holds
  | peek => exact ⟨mpResponseQueuePeek_eq holds, holds⟩

/-- Any sequence of operations is simulated, with the same replies. -/
theorem runOps_simulates (ops : List (QueueOp α)) (holds : Holds queue entries) :
    (runOps queueStep queue ops).2 = (runOps fifoStep entries ops).2 ∧
      Holds (runOps queueStep queue ops).1 (runOps fifoStep entries ops).1 := by
  induction ops generalizing queue entries with
  | nil => exact ⟨rfl, holds⟩
  | cons op rest ih =>
    obtain ⟨reply, after⟩ := queueStep_simulates holds op
    obtain ⟨replies, final⟩ := ih after
    exact ⟨congrArg₂ List.cons reply replies, final⟩

/-- A queue reached from the empty one refines the FIFO queue if and only if its
write index is not below its read index. -/
theorem queueRefines_iff (buff : Nat → α) (ops : List (QueueOp α)) :
    QueueRefines buff ops ↔
      (runOps queueStep (.empty buff) ops).1.rHead ≤ (runOps queueStep (.empty buff) ops).1.wHead := by
  have start : Holds (MpResponseQueue.empty buff) [] :=
    Ring.Represents.empty buff (show 0 < mpResponseQueueSize by decide)
  obtain ⟨replies, holds⟩ := runOps_simulates ops start
  have counted := mpResponseQueueAvailable_eq_iff holds
  constructor
  · intro refines
    exact counted.mp refines.available
  · intro ordered
    have short : (runOps fifoStep [] ops).1.length < mpResponseQueueSize := holds.short
    have full : ∀ response,
        (mpResponseQueueWrite (runOps queueStep (.empty buff) ops).1 response).2 = 0 ↔
          (runOps fifoStep [] ops).1.length = fifoCapacity := by
      intro response
      rw [(mpResponseQueueWrite_eq holds response).1, fifoWrite_eq_zero_iff]
      simp only [fifoCapacity]
      omega
    refine ⟨replies, full, fun response failed => ?_, counted.mpr ordered⟩
    exact (mpResponseQueueWrite_eq holds response).2.2 (Nat.le_of_eq ((full response).mp failed).symm)

/-- Fill the queue, read one entry and write one more: 255 entries are waiting and
`mp_response_queue_available` returns 254. -/
theorem available_short_after_wrap :
    mpResponseQueueAvailable (runOps queueStep (.empty fun _ => 0)
        (List.replicate 255 (.write 0) ++ [.read, .write 0])).1 = 254 ∧
      ¬ QueueRefines (fun _ => 0) (List.replicate 255 (.write 0) ++ [.read, .write 0]) := by
  have returned : mpResponseQueueAvailable (runOps queueStep (.empty fun _ => 0)
      (List.replicate 255 (.write 0) ++ [.read, .write 0])).1 = 254 := by decide +kernel
  refine ⟨returned, fun refines => ?_⟩
  have waiting : (runOps fifoStep []
      (List.replicate 255 (.write 0) ++ [.read, .write 0])).1.length = 255 := by decide +kernel
  have expected := refines.available
  rw [returned, waiting] at expected
  exact absurd expected (by decide)

end MultiPython.Context
