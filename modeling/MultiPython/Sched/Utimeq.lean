import MultiPython.Logic.Run
import MultiPython.Logic.SiftHeap

/-!
# Time queues

`extmod/modutimeq.c`: heaps of callbacks, each with a time on the ring of ticks and a number that
counts the pushes. Times are compared the short way around the ring, which is an order only for
times that lie within half the ring.
-/

namespace MultiPython.Sched

open Logic SiftHeap List Option Function

/-- The widths of a machine word and of `MICROPY_PY_UTIME_TICKS_PERIOD`. -/
structure TickConfig where
  wordBits : Nat
  periodBits : Nat
  positive : 1 ≤ periodBits
  fits : periodBits + 2 ≤ wordBits

namespace TickConfig

variable (config : TickConfig)

/-- The number of values of an `mp_uint_t`. -/
def words : Nat := 2 ^ config.wordBits

def modulo : Nat := 2 ^ config.periodBits

theorem four_mul_modulo_le : 4 * config.modulo ≤ config.words := by
  have widths : (2 : Nat) ^ (2 + config.periodBits) ≤ 2 ^ config.wordBits :=
    Nat.pow_le_pow_right (by omega) (by have := config.fits; omega)
  rw [Nat.pow_add] at widths
  exact widths

theorem modulo_even : 2 * (config.modulo / 2) = config.modulo :=
  Nat.mul_div_cancel' (dvd_pow_self 2 (by have := config.positive; omega))

theorem modulo_pos : 0 < config.modulo := Nat.two_pow_pos _

end TickConfig

/-- `struct qentry`. -/
structure Qentry (Obj : Type) where
  time : Nat
  id : Nat
  callback : Option Obj
  args : Option Obj
deriving DecidableEq, Repr

/-- `mp_obj_utimeq_t`. -/
structure MpObjUtimeq (Obj : Type) where
  alloc : Nat
  len : Nat
  items : Nat → Qentry Obj

/-- The state of the module: the counter of pushes, and the queues there are. -/
structure UtimeqModule (Obj : Type) where
  utimeqId : Nat
  heaps : List (MpObjUtimeq Obj)

/-- A call of the module; a queue is named by its place, and `listRef` says that the argument of
`heappop` is a list of three items at least. -/
inductive UtimeqCall (Obj : Type) where
  | makeNew (alloc : Nat)
  | heappush (heap : Nat) (time : Int) (callback args : Obj)
  | heappop (heap : Nat) (listRef : Bool)
deriving DecidableEq, Repr

/-- The call is a push. -/
def UtimeqCall.isPush {Obj : Type} : UtimeqCall Obj → Bool
  | .heappush .. => true
  | .makeNew _ | .heappop .. => false

/-- How a call ends. -/
inductive UtimeqAnswer (Obj : Type) where
  | none
  | item (time : Nat) (callback args : Option Obj)
  | indexError (message : String)
  | typeError
deriving DecidableEq, Repr

variable {Obj : Type} (config : TickConfig)

def timeLessThan (item parent : Qentry Obj) : Bool :=
  let res := (parent.time + config.words - item.time) % config.words
  if res = 0 then decide (item.id < parent.id)
  else
    let res :=
      if config.words / 2 ≤ res then (res + config.modulo) % config.words else res
    decide (res ≠ 0 ∧ res < config.modulo / 2)

def heapSiftdown (items : Nat → Qentry Obj) (startPos pos : Nat) : Nat → Qentry Obj :=
  siftDown (timeLessThan config) startPos (items pos) pos items pos

def heapSiftup (items : Nat → Qentry Obj) (len pos : Nat) : Nat → Qentry Obj :=
  let (moved, last) := bubbleUp (timeLessThan config) len len items pos
  heapSiftdown config (Function.update moved last (items pos)) pos last

def utimeqMakeNew (alloc : Nat) : MpObjUtimeq Obj where
  alloc := alloc
  len := 0
  items := fun _ => ⟨0, 0, none, none⟩

/-- `mod_utimeq_heappush`, with the counter of pushes. -/
def modUtimeqHeappush (utimeqId : Nat) (heap : MpObjUtimeq Obj) (time : Int) (callback args : Obj) :
    UtimeqAnswer Obj × Nat × MpObjUtimeq Obj :=
  if heap.len = heap.alloc then
    (.indexError "queue overflow", utimeqId, heap)
  else
    let entry : Qentry Obj :=
      ⟨(time % config.words).toNat, utimeqId, some callback, some args⟩
    let items := heapSiftdown config (Function.update heap.items heap.len entry) 0 heap.len
    (.none, (utimeqId + 1) % config.words, { heap with len := heap.len + 1, items })

def modUtimeqHeappop (heap : MpObjUtimeq Obj) (listRef : Bool) :
    UtimeqAnswer Obj × MpObjUtimeq Obj :=
  if heap.len = 0 then (.indexError "empty heap", heap)
  else if !listRef then (.typeError, heap)
  else
    let item := heap.items 0
    let len := heap.len - 1
    let items := Function.update heap.items 0 (heap.items len)
    let items := Function.update items len { items len with callback := none, args := none }
    let items := if len ≠ 0 then heapSiftup config items len 0 else items
    (.item item.time item.callback item.args, { heap with len, items })

namespace UtimeqModule

/-- The module as it is loaded. -/
def initial : UtimeqModule Obj := ⟨0, []⟩

variable (s : UtimeqModule Obj)

/-- Make a call. -/
def call : UtimeqCall Obj → Option (UtimeqAnswer Obj × UtimeqModule Obj)
  | .makeNew alloc => some (.none, { s with heaps := s.heaps ++ [utimeqMakeNew alloc] })
  | .heappush heap time callback args =>
    s.heaps[heap]?.map fun old =>
      let (answer, utimeqId, new) :=
        modUtimeqHeappush config s.utimeqId old time callback args
      (answer, ⟨utimeqId, s.heaps.set heap new⟩)
  | .heappop heap listRef =>
    s.heaps[heap]?.map fun old =>
      let (answer, new) := modUtimeqHeappop config old listRef
      (answer, { s with heaps := s.heaps.set heap new })

/-- The calls with their answers, as steps. -/
def Steps (event : UtimeqCall Obj × UtimeqAnswer Obj) (next : UtimeqModule Obj) : Prop :=
  s.call config event.1 = some (event.2, next)

end UtimeqModule

/-- How far a time lies ahead of another one on the ring of ticks. -/
def TickConfig.ahead (start time : Nat) : Nat :=
  if start ≤ time then time - start else config.modulo + time - start

/-- A time is earlier than another one: less than half the ring behind it. -/
def TickConfig.Earlier (time other : Nat) : Prop :=
  0 < config.ahead time other ∧ config.ahead time other < config.modulo / 2

/-- The entries of a queue are ticks that lie within half the ring. -/
def MpObjUtimeq.Near (heap : MpObjUtimeq Obj) : Prop :=
  ∃ start < config.modulo, ∀ entry ∈ listing heap.items heap.len,
    entry.time < config.modulo ∧ config.ahead start entry.time < config.modulo / 2

/-- The entries of every queue are ticks that lie within half the ring. -/
def UtimeqModule.Near (s : UtimeqModule Obj) : Prop := ∀ heap ∈ s.heaps, heap.Near config

/-! ## What a queue is for -/

/-- A callback that waits for a time. -/
structure Timer (Obj : Type) where
  time : Nat
  callback : Obj
  args : Obj

/-- A queue of timers, in the order in which they were pushed. -/
structure TimerQueue (Obj : Type) where
  alloc : Nat
  timers : List (Timer Obj)

/-- The answer that hands out a timer. -/
def Timer.answer (timer : Timer Obj) : UtimeqAnswer Obj :=
  .item timer.time (some timer.callback) (some timer.args)

/-- The calls with their answers, on queues of timers. A pop hands out the earliest timer, and of
several with its time the one that was pushed first. -/
inductive TimerStep :
    List (TimerQueue Obj) → UtimeqCall Obj × UtimeqAnswer Obj → List (TimerQueue Obj) → Prop where
  | makeNew {queues alloc} :
      TimerStep queues (.makeNew alloc, .none) (queues ++ [⟨alloc, []⟩])
  | push {queues heap alloc timers time callback args}
      (found : queues[heap]? = some ⟨alloc, timers⟩) (room : timers.length < alloc) :
      TimerStep queues (.heappush heap time callback args, .none)
        (queues.set heap
          ⟨alloc, timers ++ [⟨(time % config.words).toNat, callback, args⟩]⟩)
  | full {queues heap alloc timers time callback args}
      (found : queues[heap]? = some ⟨alloc, timers⟩) (isFull : timers.length = alloc) :
      TimerStep queues (.heappush heap time callback args, .indexError "queue overflow") queues
  | pop {queues heap alloc before timer after}
      (found : queues[heap]? = some ⟨alloc, before ++ timer :: after⟩)
      (earlierThanBefore : ∀ other ∈ before, config.Earlier timer.time other.time)
      (notLater : ∀ other ∈ after, timer.time = other.time ∨
        config.Earlier timer.time other.time) :
      TimerStep queues (.heappop heap true, timer.answer) (queues.set heap ⟨alloc, before ++ after⟩)
  | empty {queues heap alloc listRef} (found : queues[heap]? = some ⟨alloc, []⟩) :
      TimerStep queues (.heappop heap listRef, .indexError "empty heap") queues
  | badList {queues heap alloc timer timers}
      (found : queues[heap]? = some ⟨alloc, timer :: timers⟩) :
      TimerStep queues (.heappop heap false, .typeError) queues

/-! ## The comparison in a window -/

section Window

variable {config} {start time other : Nat}

section

variable (startInside : start < config.modulo) (inside : time < config.modulo)
  (otherInside : other < config.modulo)

include startInside inside otherInside

theorem ahead_of_window (sooner : config.ahead start time ≤ config.ahead start other) :
    config.ahead time other = config.ahead start other - config.ahead start time := by
  unfold TickConfig.ahead at *
  split_ifs at * <;> omega

theorem earlier_of_window (near : config.ahead start other < config.modulo / 2)
    (sooner : config.ahead start time < config.ahead start other) : config.Earlier time other := by
  unfold TickConfig.Earlier
  rw [ahead_of_window startInside inside otherInside sooner.le]
  omega

theorem ahead_inj (same : config.ahead start time = config.ahead start other) : time = other := by
  unfold TickConfig.ahead at same
  split_ifs at same <;> omega

end

/-- The difference that `time_less_than` computes. -/
theorem timeLessThan_iff {first second : Qentry Obj} (firstInside : first.time < config.modulo)
    (secondInside : second.time < config.modulo) :
    timeLessThan config first second = true ↔
      if first.time = second.time then first.id < second.id
      else config.ahead first.time second.time < config.modulo / 2 := by
  have period := config.four_mul_modulo_le
  have even := config.modulo_even
  have positive := config.modulo_pos
  have wordsEven : 2 * (config.words / 2) = config.words :=
    Nat.mul_div_cancel' (dvd_pow_self 2 (by have := config.fits; omega))
  unfold timeLessThan TickConfig.ahead
  rcases Nat.lt_trichotomy first.time second.time with less | same | more
  · have exact : (second.time + config.words - first.time) % config.words =
        second.time - first.time := by
      rw [Nat.sub_add_comm less.le, Nat.add_mod_right, Nat.mod_eq_of_lt (by omega)]
    simp only [exact]
    rw [if_neg (by omega), if_neg (by omega), if_neg (by omega), if_pos (by omega),
      decide_eq_true_iff]
    omega
  · have exact : (second.time + config.words - first.time) % config.words = 0 := by
      rw [same, Nat.add_sub_cancel_left, Nat.mod_self]
    simp only [exact]
    rw [if_pos trivial, if_pos same, decide_eq_true_iff]
  · have exact : (second.time + config.words - first.time) % config.words =
        config.words + second.time - first.time := by
      rw [Nat.add_comm, Nat.mod_eq_of_lt (by omega)]
    have wrapped : (config.words + second.time - first.time + config.modulo) % config.words =
        config.modulo + second.time - first.time := by
      have split : config.words + second.time - first.time + config.modulo =
          config.modulo + second.time - first.time + config.words := by omega
      rw [split, Nat.add_mod_right, Nat.mod_eq_of_lt (by omega)]
    simp only [exact]
    rw [if_neg (by omega), if_pos (by omega), wrapped, if_neg (by omega), if_neg (by omega),
      decide_eq_true_iff]
    omega

/-- The key by which a window orders its entries: the distance from its start, then the number of
the push. -/
def windowKey (config : TickConfig) (start : Nat) (entry : Qentry Obj) : Nat ×ₗ Nat :=
  toLex (config.ahead start entry.time, entry.id)

/-- An entry lies in a window. -/
def InWindow (config : TickConfig) (start : Nat) (entry : Qentry Obj) : Prop :=
  entry.time < config.modulo ∧ config.ahead start entry.time < config.modulo / 2

/-- In a window `time_less_than` compares keys. -/
theorem timeLessThan_compares (startInside : start < config.modulo) :
    Compares (timeLessThan config) (windowKey config start)
      (fun entry : Qentry Obj => InWindow config start entry) := by
  intro first second firstIn secondIn
  rw [timeLessThan_iff firstIn.1 secondIn.1, windowKey, windowKey, Prod.Lex.lt_iff]
  have firstNear := firstIn.2
  have secondNear := secondIn.2
  have even := config.modulo_even
  rcases Nat.lt_trichotomy (config.ahead start first.time) (config.ahead start second.time)
    with less | same | more
  · have apart := ahead_of_window startInside firstIn.1 secondIn.1 less.le
    have differ : first.time ≠ second.time := by
      intro equal
      rw [equal] at less
      exact Nat.lt_irrefl _ less
    rw [if_neg differ, apart]
    exact ⟨fun _ => .inl less, fun _ => by omega⟩
  · have equal := ahead_inj startInside firstIn.1 secondIn.1 same
    rw [if_pos equal, equal]
    simp
  · have differ : first.time ≠ second.time := by
      intro equal
      rw [equal] at more
      exact Nat.lt_irrefl _ more
    have far : config.modulo / 2 ≤ config.ahead first.time second.time := by
      have behind := ahead_of_window startInside secondIn.1 firstIn.1 more.le
      have firstInside := firstIn.1
      have secondInside := secondIn.1
      unfold TickConfig.ahead at *
      split_ifs at * <;> omega
    rw [if_neg differ]
    refine ⟨fun near => absurd near (by omega), fun order => ?_⟩
    rcases order with less | ⟨same, -⟩
    · exact absurd less (by simpa using more.le)
    · exact absurd same more.ne'

end Window

/-! ## The heaps hold the queues -/

/-- What an entry says about its timer. -/
def Qentry.content (entry : Qentry Obj) : Nat × Option Obj × Option Obj :=
  (entry.time, entry.callback, entry.args)

/-- What a timer asks for. -/
def Timer.content (timer : Timer Obj) : Nat × Option Obj × Option Obj :=
  (timer.time, some timer.callback, some timer.args)

/-- A heap holds the timers of a queue, which have rising numbers below a bound. -/
structure HoldsTimers (config : TickConfig) (bound : Nat) (heap : MpObjUtimeq Obj)
    (queue : TimerQueue Obj) : Prop where
  alloc : heap.alloc = queue.alloc
  short : heap.len ≤ heap.alloc
  ordered : ∀ index, 0 < index → index < heap.len →
    timeLessThan config (heap.items index) (heap.items (parent index)) = false
  entries : ∃ entries : List (Qentry Obj), (listing heap.items heap.len).Perm entries ∧
    entries.Pairwise (fun first second => first.id < second.id) ∧
    (∀ entry ∈ entries, entry.id < bound) ∧
    entries.map Qentry.content = queue.timers.map Timer.content

section Heaps

variable {config} {heap : MpObjUtimeq Obj} {queue : TimerQueue Obj} {bound : Nat}

theorem HoldsTimers.len_eq (holds : HoldsTimers config bound heap queue) :
    heap.len = queue.timers.length := by
  obtain ⟨entries, perm, -, -, same⟩ := holds.entries
  have lengths := congrArg List.length same
  rw [length_map, length_map, ← perm.length_eq, length_listing] at lengths
  exact lengths

theorem HoldsTimers.mono (holds : HoldsTimers config bound heap queue) {larger : Nat}
    (atLeast : bound ≤ larger) : HoldsTimers config larger heap queue := by
  obtain ⟨entries, perm, rising, bounded, same⟩ := holds.entries
  exact ⟨holds.alloc, holds.short, holds.ordered, entries, perm, rising,
    fun entry member => (bounded entry member).trans_le atLeast, same⟩

theorem utimeqMakeNew_holds (alloc : Nat) :
    HoldsTimers config bound (utimeqMakeNew alloc) (⟨alloc, []⟩ : TimerQueue Obj) :=
  ⟨rfl, Nat.zero_le _, fun _ _ inside => absurd inside (Nat.not_lt_zero _),
    [], List.Perm.refl _, List.Pairwise.nil, by simp, rfl⟩

/-- No entry is less than the one above it. -/
def Sifted (config : TickConfig) (items : Nat → Qentry Obj) (len : Nat) : Prop :=
  ∀ index, 0 < index → index < len →
    timeLessThan config (items index) (items (parent index)) = false

variable {items : Nat → Qentry Obj} {len pos start : Nat}

theorem heapSiftdown_perm (startPos : Nat) (inside : pos < len) :
    (listing (heapSiftdown config items startPos pos) len).Perm (listing items len) := by
  have perm := @siftDown_perm _ items len pos (items pos) (timeLessThan config) startPos pos inside
  rwa [update_eq_self] at perm

theorem heapSiftdown_sifted (startInside : start < config.modulo) (inside : pos < len)
    (near : ∀ entry ∈ listing items len, InWindow config start entry)
    (below : OrderedBelow (windowKey config start) items len pos) :
    Sifted config (heapSiftdown config items 0 pos) len := by
  have compares := @timeLessThan_compares Obj config start startInside
  have stillNear : ∀ entry ∈ listing (heapSiftdown config items 0 pos) len,
      InWindow config start entry :=
    fun entry member => near entry ((heapSiftdown_perm 0 inside).subset member)
  refine (heapOrdered_iff compares stillNear).mp ?_
  rw [heapSiftdown]
  refine siftDown_ordered compares le_rfl inside ?_ ?_
  · rwa [update_eq_self]
  · rwa [update_eq_self]

theorem heapSiftup_spec (startInside : start < config.modulo) (inside : 0 < len)
    (near : ∀ entry ∈ listing items len, InWindow config start entry)
    (around : OrderedAround (windowKey config start) items len 0) :
    (listing (heapSiftup config items len 0) len).Perm (listing items len) ∧
      Sifted config (heapSiftup config items len 0) len := by
  have compares := @timeLessThan_compares Obj config start startInside
  cases bubbled : bubbleUp (timeLessThan config) len len items 0 with
  | mk moved last =>
    obtain ⟨movedAround, lastInside, bottom, perm⟩ := bubbleUp_spec compares (by omega) inside
      (fun index indexInside _ => near _ (mem_listing.mpr ⟨index, indexInside, rfl⟩)) around
      bubbled
    have filled := perm (items 0)
    rw [update_eq_self] at filled
    rw [heapSiftup, bubbled]
    exact ⟨(heapSiftdown_perm 0 lastInside).trans filled,
      heapSiftdown_sifted startInside lastInside
        (fun entry member => near entry (filled.subset member)) (movedAround.fill bottom)⟩

variable {answer : UtimeqAnswer Obj} {after : MpObjUtimeq Obj}

/-- A push that has room adds its timer behind the others. -/
theorem HoldsTimers.push (holds : HoldsTimers config bound heap queue) {time : Int}
    {callback args : Obj} {utimeqId : Nat} (room : heap.len ≠ heap.alloc)
    (pushed : modUtimeqHeappush config bound heap time callback args = (answer, utimeqId, after))
    (near : after.Near config) :
    answer = .none ∧ utimeqId = (bound + 1) % config.words ∧
      HoldsTimers config (bound + 1) after
        ⟨queue.alloc, queue.timers ++ [⟨(time % config.words).toNat, callback, args⟩]⟩ := by
  let entry : Qentry Obj := ⟨(time % config.words).toNat, bound, some callback, some args⟩
  rw [modUtimeqHeappush, if_neg room] at pushed
  obtain ⟨rfl, rfl, rfl⟩ : answer = _ ∧ utimeqId = _ ∧ after = _ := by
    simp only [Prod.mk.injEq] at pushed
    exact ⟨pushed.1.symm, pushed.2.1.symm, pushed.2.2.symm⟩
  have added : (listing (heapSiftdown config (Function.update heap.items heap.len entry) 0 heap.len)
      (heap.len + 1)).Perm (listing heap.items heap.len ++ [entry]) := by
    refine (heapSiftdown_perm 0 (Nat.lt_succ_self _)).trans ?_
    rw [listing_succ, listing_update_of_le le_rfl, update_self]
  obtain ⟨start, startInside, window⟩ := near
  have windowBefore : ∀ one ∈ listing heap.items heap.len ++ [entry], InWindow config start one :=
    fun one member => window one (added.symm.subset member)
  refine ⟨rfl, rfl, holds.alloc, ?_, ?_, ?_⟩
  · have short := holds.short
    change heap.len + 1 ≤ heap.alloc
    omega
  · have compares := @timeLessThan_compares Obj config start startInside
    have heapOrdered := (heapOrdered_iff compares fun one member =>
      windowBefore one (mem_append_left _ member)).mpr holds.ordered
    refine heapSiftdown_sifted startInside (Nat.lt_succ_self _) ?_ heapOrdered.extend
    rw [listing_succ, listing_update_of_le le_rfl, update_self]
    exact windowBefore
  · obtain ⟨entries, perm, rising, bounded, same⟩ := holds.entries
    refine ⟨entries ++ [entry], added.trans (perm.append_right _), ?_, ?_, ?_⟩
    · refine pairwise_append.mpr ⟨rising, pairwise_singleton _ _, ?_⟩
      intro one member other isEntry
      obtain rfl := mem_singleton.mp isEntry
      exact bounded one member
    · intro one member
      rcases mem_append.mp member with old | new
      · exact (bounded one old).trans (Nat.lt_succ_self _)
      · obtain rfl := mem_singleton.mp new
        exact Nat.lt_succ_self _
    · rw [map_append, map_append, same]
      rfl

/-- A pop takes the first entry away, and leaves a heap. -/
theorem modUtimeqHeappop_spec (some_ : heap.len ≠ 0)
    (popped : modUtimeqHeappop config heap true = (answer, after))
    (startInside : start < config.modulo)
    (near : ∀ entry ∈ listing heap.items heap.len, InWindow config start entry)
    (ordered : HeapOrdered (windowKey config start) heap.items heap.len) :
    answer = .item (heap.items 0).time (heap.items 0).callback (heap.items 0).args ∧
      after.alloc = heap.alloc ∧ after.len < heap.len ∧
      (heap.items 0 :: listing after.items after.len).Perm (listing heap.items heap.len) ∧
      Sifted config after.items after.len := by
  obtain ⟨len, isSucc⟩ := Nat.exists_eq_add_one_of_ne_zero some_
  rw [modUtimeqHeappop, if_neg some_, if_neg (by decide), isSucc, Nat.add_sub_cancel] at popped
  obtain ⟨rfl, rfl⟩ := Prod.mk.inj popped
  rw [isSucc] at near ordered ⊢
  have taken := @listing_takeFirst _ heap.items len
  refine ⟨rfl, rfl, Nat.lt_succ_self _, ?_⟩
  dsimp only
  generalize hCleared : Function.update (Function.update heap.items 0 (heap.items len)) len
    _ = cleared
  have clearedListing : listing cleared len =
      listing (Function.update heap.items 0 (heap.items len)) len := by
    rw [← hCleared, listing_update_of_le le_rfl]
  rw [← clearedListing] at taken
  by_cases isLast : len = 0
  · rw [if_neg (by omega)]
    exact ⟨taken, fun _ _ inside => absurd inside (by omega)⟩
  · rw [if_pos isLast]
    have around : OrderedAround (windowKey config start) cleared len 0 := by
      have replaced : OrderedAround (windowKey config start)
          (Function.update heap.items 0 (heap.items len)) len 0 := ordered.around (Nat.le_succ len)
      refine replaced.congr (by omega) fun index inside => ?_
      rw [← hCleared, update_of_ne (by omega)]
    obtain ⟨perm, sifted⟩ := heapSiftup_spec startInside (by omega)
      (fun entry member => near entry (taken.subset (mem_cons_of_mem _ member))) around
    exact ⟨(perm.cons _).trans taken, sifted⟩

/-- A pop takes the first of the earliest timers. -/
theorem HoldsTimers.pop (holds : HoldsTimers config bound heap queue) (some_ : heap.len ≠ 0)
    (popped : modUtimeqHeappop config heap true = (answer, after)) (near : heap.Near config) :
    ∃ before timer later, queue.timers = before ++ timer :: later ∧ answer = timer.answer ∧
      (∀ other ∈ before, config.Earlier timer.time other.time) ∧
      (∀ other ∈ later, timer.time = other.time ∨ config.Earlier timer.time other.time) ∧
      HoldsTimers config bound after ⟨queue.alloc, before ++ later⟩ := by
  obtain ⟨start, startInside, window⟩ := near
  have window : ∀ entry ∈ listing heap.items heap.len, InWindow config start entry := window
  have ordered := (heapOrdered_iff (timeLessThan_compares startInside) window).mpr holds.ordered
  obtain ⟨rfl, alloc, shorter, taken, sifted⟩ :=
    modUtimeqHeappop_spec some_ popped startInside window ordered
  obtain ⟨entries, perm, rising, bounded, same⟩ := holds.entries
  have isFirst : heap.items 0 ∈ listing heap.items heap.len :=
    mem_listing.mpr ⟨0, Nat.pos_of_ne_zero some_, rfl⟩
  obtain ⟨earlyEntries, lateEntries, rfl⟩ := append_of_mem (perm.subset isFirst)
  rw [map_append, map_cons, eq_comm] at same
  obtain ⟨before, rest, isSplit, beforeSame, restSame⟩ := map_eq_append_iff.mp same
  obtain ⟨timer, later, rfl, timerSame, laterSame⟩ := map_eq_cons_iff.mp restSame
  have least : ∀ entry ∈ earlyEntries ++ heap.items 0 :: lateEntries,
      InWindow config start entry ∧ windowKey config start (heap.items 0) ≤
        windowKey config start entry := by
    intro entry member
    obtain ⟨index, inside, rfl⟩ := mem_listing.mp (perm.symm.subset member)
    exact ⟨window _ (mem_listing.mpr ⟨index, inside, rfl⟩), ordered.first_le index inside⟩
  obtain ⟨firstWindow, -⟩ := least (heap.items 0)
    (mem_append_right _ mem_cons_self)
  obtain ⟨earlyRising, lateRising, acrossRising⟩ := pairwise_append.mp rising
  have time : timer.time = (heap.items 0).time := congrArg Prod.fst timerSame
  refine ⟨before, timer, later, isSplit, ?_, fun other member => ?_, fun other member => ?_, ?_⟩
  · rw [Timer.answer, time, ← (Prod.mk.inj (Prod.mk.inj timerSame).2).1,
      ← (Prod.mk.inj (Prod.mk.inj timerSame).2).2]
  · -- An entry of the same time that was pushed before would be smaller.
    have isContent : other.content ∈ earlyEntries.map Qentry.content := by
      rw [← beforeSame]
      exact List.mem_map_of_mem member
    obtain ⟨entry, isEarly, contentSame⟩ := List.mem_map.mp isContent
    obtain ⟨entryWindow, smaller⟩ := least entry (mem_append_left _ isEarly)
    have pushedBefore := acrossRising entry isEarly (heap.items 0) mem_cons_self
    have otherTime : entry.time = other.time := congrArg Prod.fst contentSame
    rw [time, ← otherTime]
    rcases Prod.Lex.le_iff.mp smaller with sooner | ⟨-, notBefore⟩
    · exact earlier_of_window startInside firstWindow.1 entryWindow.1 entryWindow.2 sooner
    · exact absurd pushedBefore (Nat.not_lt.mpr notBefore)
  · have isContent : other.content ∈ lateEntries.map Qentry.content := by
      rw [← laterSame]
      exact List.mem_map_of_mem member
    obtain ⟨entry, isLate, contentSame⟩ := List.mem_map.mp isContent
    obtain ⟨entryWindow, smaller⟩ :=
      least entry (mem_append_right _ (mem_cons_of_mem _ isLate))
    have otherTime : entry.time = other.time := congrArg Prod.fst contentSame
    rw [time, ← otherTime]
    rcases Prod.Lex.le_iff.mp smaller with sooner | ⟨same, -⟩
    · exact .inr
        (earlier_of_window startInside firstWindow.1 entryWindow.1 entryWindow.2 sooner)
    · exact .inl (ahead_inj startInside firstWindow.1 entryWindow.1 same)
  · have rest : (listing after.items after.len).Perm (earlyEntries ++ lateEntries) :=
      List.Perm.cons_inv ((taken.trans perm).trans perm_middle)
    refine ⟨alloc.trans holds.alloc, ?_, sifted, earlyEntries ++ lateEntries, rest, ?_, ?_, ?_⟩
    · have short := holds.short
      omega
    · exact pairwise_append.mpr ⟨earlyRising, (pairwise_cons.mp lateRising).2,
        fun one member other isLate =>
          acrossRising one member other (mem_cons_of_mem _ isLate)⟩
    · intro entry member
      refine bounded entry ?_
      rcases mem_append.mp member with early | late
      · exact mem_append_left _ early
      · exact mem_append_right _ (mem_cons_of_mem _ late)
    · rw [map_append, map_append, beforeSame, laterSame]

end Heaps

/-! ## Runs of the module -/

/-- The heaps of the module hold queues. -/
structure HoldsQueues (config : TickConfig) (s : UtimeqModule Obj)
    (queues : List (TimerQueue Obj)) : Prop where
  length : s.heaps.length = queues.length
  holds : ∀ {index : Nat} {heap : MpObjUtimeq Obj}, s.heaps[index]? = some heap →
    ∃ queue : TimerQueue Obj, queues[index]? = some queue ∧
      HoldsTimers config s.utimeqId heap queue

section Runs

variable {config} {s next : UtimeqModule Obj} {queues : List (TimerQueue Obj)}

theorem set_same {β : Type} {entries : List β} {place : Nat} {entry : β}
    (found : entries[place]? = some entry) : entries.set place entry = entries := by
  obtain ⟨inside, rfl⟩ := List.getElem?_eq_some_iff.mp found
  exact set_getElem_self inside

theorem HoldsQueues.set (holds : HoldsQueues config s queues) {place : Nat}
    {heap : MpObjUtimeq Obj} {queue : TimerQueue Obj} {utimeqId : Nat}
    (atLeast : s.utimeqId ≤ utimeqId) (holdsNew : HoldsTimers config utimeqId heap queue) :
    HoldsQueues config ⟨utimeqId, s.heaps.set place heap⟩ (queues.set place queue) where
  length := by simp [holds.length]
  holds := by
    intro index other found
    rw [List.getElem?_set] at found ⊢
    by_cases same : place = index
    · rw [if_pos same] at found ⊢
      split_ifs at found with inside
      obtain rfl := some.inj found
      rw [if_pos (by rw [← holds.length]; exact inside)]
      exact ⟨queue, rfl, holdsNew⟩
    · rw [if_neg same] at found ⊢
      obtain ⟨old, isOld, holdsOld⟩ := holds.holds found
      exact ⟨old, isOld, holdsOld.mono atLeast⟩

/-- Every call that the heaps make is one that the queues make. -/
theorem HoldsQueues.step (holds : HoldsQueues config s queues)
    {event : UtimeqCall Obj × UtimeqAnswer Obj} (stepped : s.Steps config event next)
    (near : s.Near config) (nextNear : next.Near config)
    (few : event.1.isPush = true → s.utimeqId + 1 < config.words) :
    ∃ after, TimerStep config queues event after ∧ HoldsQueues config next after ∧
      next.utimeqId ≤ s.utimeqId + (if event.1.isPush then 1 else 0) := by
  obtain ⟨call, answer⟩ := event
  cases call with
  | makeNew alloc =>
    obtain ⟨rfl, rfl⟩ := Prod.mk.inj (some.inj stepped)
    refine ⟨_, .makeNew, ⟨by simp [holds.length], fun {index heap} found => ?_⟩,
      Nat.le_add_right _ _⟩
    rw [List.getElem?_append] at found ⊢
    rw [← holds.length]
    split_ifs at found ⊢ with inside
    · exact holds.holds found
    · rw [List.getElem?_singleton] at found ⊢
      split_ifs at found ⊢
      obtain rfl := some.inj found
      exact ⟨_, rfl, utimeqMakeNew_holds alloc⟩
  | heappush place time callback args =>
    obtain ⟨heap, found, called⟩ := map_eq_some_iff.mp stepped
    obtain ⟨queue, isQueue, holdsQueue⟩ := holds.holds found
    have len := holdsQueue.len_eq
    cases pushed : modUtimeqHeappush config s.utimeqId heap time callback args with
    | mk pushAnswer pushedRest =>
      obtain ⟨utimeqId, after⟩ := pushedRest
      rw [pushed] at called
      obtain ⟨rfl, rfl⟩ := Prod.mk.inj called
      by_cases full : heap.len = heap.alloc
      · rw [modUtimeqHeappush, if_pos full] at pushed
        obtain ⟨rfl, rest⟩ := Prod.mk.inj pushed
        obtain ⟨rfl, rfl⟩ := Prod.mk.inj rest
        refine ⟨queues, .full isQueue ?_, ?_, Nat.le_add_right _ _⟩
        · rw [← len, full, holdsQueue.alloc]
        · have same := @HoldsQueues.set _ _ _ _ holds place _ _ _ le_rfl holdsQueue
          rwa [set_same isQueue] at same
      · have afterNear : after.Near config := nextNear after (by
          refine mem_set ?_ after
          exact (List.getElem?_eq_some_iff.mp found).1)
        obtain ⟨rfl, isNext, holdsAfter⟩ := holdsQueue.push full pushed afterNear
        have exact : utimeqId = s.utimeqId + 1 := by
          rw [isNext, Nat.mod_eq_of_lt (few rfl)]
        refine ⟨_, .push isQueue ?_, holds.set (by omega) (exact ▸ holdsAfter), exact.le⟩
        have short := holdsQueue.short
        rw [← len, ← holdsQueue.alloc]
        omega
  | heappop place listRef =>
    obtain ⟨heap, found, called⟩ := map_eq_some_iff.mp stepped
    obtain ⟨⟨alloc, timers⟩, isQueue, holdsQueue⟩ := holds.holds found
    have len := holdsQueue.len_eq
    have unchanged : HoldsQueues config { s with heaps := s.heaps.set place heap } queues := by
      rw [set_same found]
      exact holds
    cases popped : modUtimeqHeappop config heap listRef with
    | mk popAnswer after =>
      rw [popped] at called
      obtain ⟨rfl, rfl⟩ := Prod.mk.inj called
      by_cases empty : heap.len = 0
      · rw [modUtimeqHeappop, if_pos empty] at popped
        obtain ⟨rfl, rfl⟩ := Prod.mk.inj popped
        obtain rfl := eq_nil_of_length_eq_zero (len.symm.trans empty)
        exact ⟨queues, .empty isQueue, unchanged, Nat.le_add_right _ _⟩
      · cases listRef with
        | false =>
          rw [modUtimeqHeappop, if_neg empty, if_pos (by rfl)] at popped
          obtain ⟨rfl, rfl⟩ := Prod.mk.inj popped
          obtain ⟨timer, later, rfl⟩ : ∃ timer later, timers = timer :: later :=
            exists_cons_of_ne_nil fun none => empty (by rw [len, none]; rfl)
          exact ⟨queues, .badList isQueue, unchanged, Nat.le_add_right _ _⟩
        | true =>
          have heapNear := near heap (mem_of_getElem? found)
          obtain ⟨before, timer, later, isSplit, rfl, earlier, notLater, holdsAfter⟩ :=
            holdsQueue.pop empty popped heapNear
          have isSplit : timers = before ++ timer :: later := isSplit
          rw [isSplit] at isQueue
          exact ⟨_, .pop isQueue earlier notLater, holds.set le_rfl holdsAfter,
            Nat.le_add_right _ _⟩

theorem HoldsQueues.run {run : List ((UtimeqCall Obj × UtimeqAnswer Obj) × UtimeqModule Obj)}
    (runs : Run (UtimeqModule.Steps config) s run) (holds : HoldsQueues config s queues)
    (near : ∀ state ∈ visited s run, state.Near config)
    (few : s.utimeqId + run.countP (fun step => step.1.1.isPush) < config.words) :
    ∃ queueRun, Run (TimerStep config) queues queueRun ∧
      queueRun.map Prod.fst = run.map Prod.fst := by
  induction runs generalizing queues with
  | nil => exact ⟨[], .nil, rfl⟩
  | @cons state event next rest first later ih =>
    have here : state.Near config := near state mem_cons_self
    have there : next.Near config := near next (by simp [visited])
    rw [countP_cons] at few
    obtain ⟨after, stepped, holdsAfter, counted⟩ := holds.step first here there
      (fun isPush => by rw [if_pos isPush] at few; omega)
    obtain ⟨queueRun, queueRuns, same⟩ := ih holdsAfter
      (fun other member => near other (mem_cons_of_mem _ (by simpa [visited] using member)))
      (by dsimp only at few; omega)
    exact ⟨(event, after) :: queueRun, .cons stepped queueRuns, by rw [map_cons, same]; rfl⟩

/-- In every run with fewer pushes than a word has values in which the entries of every queue
always lie within half the ring of ticks, the heaps answer as queues that hand out the earliest
timer, the first pushed of several; and a push on a full queue raises and changes nothing. -/
theorem utimeq_refines {run : List ((UtimeqCall Obj × UtimeqAnswer Obj) × UtimeqModule Obj)}
    (runs : Run (UtimeqModule.Steps config) UtimeqModule.initial run)
    (near : ∀ s ∈ visited UtimeqModule.initial run, s.Near config)
    (few : run.countP (fun step => step.1.1.isPush) < config.words) :
    (∃ queueRun, Run (TimerStep config) [] queueRun ∧
      queueRun.map Prod.fst = run.map Prod.fst) ∧
    ∀ s ∈ visited UtimeqModule.initial run, ∀ place heap time callback args,
      s.heaps[place]? = some heap → heap.len = heap.alloc →
      s.call config (.heappush place time callback args) =
        some (.indexError "queue overflow", s) := by
  constructor
  · refine HoldsQueues.run runs ⟨rfl, fun found => ?_⟩ near
      (by simpa [UtimeqModule.initial] using few)
    simp [UtimeqModule.initial] at found
  · intro s _ place heap time callback args found full
    rw [UtimeqModule.call, found, map_some, modUtimeqHeappush, if_pos full]
    dsimp only
    rw [set_same found]

end Runs

/-- Ticks of 30 bits in words of 32 bits. -/
def ticks30 : TickConfig := ⟨32, 30, by decide, by decide⟩

/-- Make a call, if it gives the answer. -/
def UtimeqModule.answered (s : UtimeqModule Nat) (event : UtimeqCall Nat × UtimeqAnswer Nat) :
    Option (UtimeqModule Nat) :=
  (s.call ticks30 event.1).bind fun result => if result.1 = event.2 then some result.2 else none

/-- The ticks start again at zero while the queue waits. -/
theorem utimeq_refines_wrapped :
    let run := trace UtimeqModule.answered UtimeqModule.initial
      [(.makeNew 3, .none), (.heappush 0 5 1 10, .none), (.heappush 0 (2 ^ 30 - 4) 2 20, .none),
        (.heappush 0 (2 ^ 30 - 4) 3 30, .none),
        (.heappush 0 7 4 40, .indexError "queue overflow"),
        (.heappop 0 true, .item (2 ^ 30 - 4) (some 2) (some 20)),
        (.heappop 0 true, .item (2 ^ 30 - 4) (some 3) (some 30)),
        (.heappop 0 true, .item 5 (some 1) (some 10))]
    run.length = 8 ∧ ∃ queueRun, Run (TimerStep ticks30) [] queueRun ∧
      queueRun.map Prod.fst = run.map Prod.fst := by
  intro run
  have runs : Run (UtimeqModule.Steps ticks30) UtimeqModule.initial run := by
    refine Run.of_trace (fun _ _ => True) (fun {state event after} _ made => ?_) _
      fun _ _ => trivial
    obtain ⟨⟨answer, next⟩, called, same⟩ := bind_eq_some_iff.mp made
    obtain ⟨rfl, isNext⟩ := ite_none_right_eq_some.mp same
    obtain rfl := some.inj isNext
    exact called
  have window : ∀ s ∈ visited UtimeqModule.initial run, ∀ heap ∈ s.heaps,
      ∀ entry ∈ listing heap.items heap.len, entry.time < ticks30.modulo ∧
        ticks30.ahead (2 ^ 30 - 4) entry.time < ticks30.modulo / 2 := by
    decide
  refine ⟨by decide, (utimeq_refines runs (fun s member heap isHeap => ?_)
    (by decide)).1⟩
  exact ⟨2 ^ 30 - 4, by decide, window s member heap isHeap⟩

end MultiPython.Sched
