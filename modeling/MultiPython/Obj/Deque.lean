import MultiPython.Logic.Calls
import MultiPython.Logic.Ring
import MultiPython.Obj.Multiply

/-!
# The deque

A ring of `maxlen + 1` items between two indices, one of which an append on a full ring moves along.
The flags are stored only when they are given; what the memory of the object held before is a
parameter, like the answers of the heap. An access outside of the items is a fault.
-/

namespace MultiPython.Obj

open Logic List

variable {α : Type}

/-- `mp_obj_deque_t`; `slots` is how many items the memory at `items` has room for, and an item that
is not there is `MP_OBJ_NULL`. -/
structure MpObjDeque (α : Type) where
  alloc : Nat
  iGet : Nat
  iPut : Nat
  slots : Nat
  items : Nat → Option α
  flags : Nat

/-- The operations on a deque. -/
inductive DequeCall (α : Type) where
  | append (arg : α)
  | popleft
  | len
  | bool

/-- What they answer. -/
inductive DequeAnswer (α : Type) where
  | none_
  | item (value : Option α)
  | length (len : Int)
  | truth (value : Bool)
  | indexError (text : String)

/-- The exceptions of `deque_make_new`. -/
inductive DequeError where
  | valueError
  | memoryError

/-- The flags of a new deque; `held` is what their memory held before. -/
def newFlags (held : Nat) : Option Int → Nat
  | some flags => (flags % 2 ^ 32).toNat
  | none => held

/-- `deque_make_new`, for an empty tuple. -/
def dequeMakeNew (config : SeqConfig) (dequeObjSize : Nat) (granted : Nat → Nat → Bool) (held : Nat)
    (maxlen : Int) (flags : Option Int) : Except DequeError (MpObjDeque α) :=
  if maxlen < 0 then .error .valueError
  else
    let alloc := maxlen.toNat + 1
    let size := config.objSize * alloc % 2 ^ config.wordBits
    if granted 0 dequeObjSize && granted 1 size then
      .ok
        { alloc := alloc
          iGet := 0
          iPut := 0
          slots := size / config.objSize
          items := fun _ => none
          flags := newFlags held flags }
    else .error .memoryError

namespace MpObjDeque

/-- The flag `FLAG_CHECK_OVERFLOW`. -/
def checkOverflow (flags : Nat) : Bool := flags &&& 1 != 0

/-- The index behind an index. -/
def wrapped (self : MpObjDeque α) (index : Nat) : Nat :=
  if index + 1 = self.alloc then 0 else index + 1

/-- `mp_obj_deque_append`; without a result the store is outside of the items. -/
def append (self : MpObjDeque α) (arg : α) : Option (DequeAnswer α × MpObjDeque α) :=
  let newIPut := self.wrapped self.iPut
  if checkOverflow self.flags && newIPut == self.iGet then some (.indexError "full", self)
  else if self.iPut < self.slots then
    some (.none_,
      { self with
        items := Function.update self.items self.iPut (some arg)
        iPut := newIPut
        iGet := if self.iGet = newIPut then self.wrapped self.iGet else self.iGet })
  else none

/-- `deque_popleft`. -/
def popleft (self : MpObjDeque α) : Option (DequeAnswer α × MpObjDeque α) :=
  if self.iGet = self.iPut then some (.indexError "empty", self)
  else if self.iGet < self.slots then
    some (.item (self.items self.iGet),
      { self with
        items := Function.update self.items self.iGet none
        iGet := self.wrapped self.iGet })
  else none

/-- `MP_UNARY_OP_LEN` of `deque_unary_op`. -/
def len (self : MpObjDeque α) : Int :=
  let len : Int := self.iPut - self.iGet
  if len < 0 then len + self.alloc else len

/-- An operation on a deque. -/
def call (self : MpObjDeque α) : DequeCall α → Option (DequeAnswer α × MpObjDeque α)
  | .append arg => self.append arg
  | .popleft => self.popleft
  | .len => some (.length self.len, self)
  | .bool => some (.truth (self.iGet != self.iPut), self)

/-- The items from the read index on. -/
def contents (self : MpObjDeque α) : List α :=
  (Ring.entriesBetween self.alloc self.items self.iGet self.iPut).reduceOption

end MpObjDeque

/-! ## The queue that a deque stands for -/

/-- The same operation on a queue of at most `maxlen` items. -/
def boundedFifo (maxlen : Nat) (check : Bool) (queue : List α) :
    DequeCall α → Option (DequeAnswer α × List α)
  | .append arg =>
    if queue.length < maxlen then some (.none_, queue ++ [arg])
    else if check then some (.indexError "full", queue)
    else some (.none_, (queue ++ [arg]).tail)
  | .popleft =>
    match queue with
    | [] => some (.indexError "empty", [])
    | item :: queue => some (.item (some item), queue)
  | .len => some (.length queue.length, queue)
  | .bool => some (.truth (!queue.isEmpty), queue)

/-- Every sequence of calls is answered as the queue answers it. -/
def MpObjDeque.ActsAsFifo (self : MpObjDeque α) (maxlen : Nat) (check : Bool) : Prop :=
  ∀ calls : List (DequeCall α),
    (responses MpObjDeque.call self calls).map (Option.map (Prod.map id MpObjDeque.contents)) =
      responses (boundedFifo maxlen check) [] calls ∧
    ∀ answer queue, some (answer, queue) ∈ responses (boundedFifo maxlen check) [] calls →
      queue.length ≤ maxlen

variable {maxlen : Nat} {answer : DequeAnswer α}

theorem boundedFifo_length {check : Bool} {queue next : List α} {call : DequeCall α}
    (fits : queue.length ≤ maxlen)
    (answered : boundedFifo maxlen check queue call = some (answer, next)) :
    next.length ≤ maxlen := by
  cases call with
  | append arg =>
    rw [boundedFifo] at answered
    split_ifs at answered with room isChecked
    · cases answered
      rw [length_append]
      exact room
    · cases answered
      exact fits
    · cases answered
      rw [length_tail, length_append]
      exact fits
  | popleft =>
    cases queue with
    | nil =>
      cases answered
      exact Nat.zero_le _
    | cons item queue =>
      cases answered
      exact (Nat.le_succ _).trans fits
  | len =>
    cases answered
    exact fits
  | bool =>
    cases answered
    exact fits

/-! ## The ring -/

/-- The deque holds a queue. -/
structure MpObjDeque.Holds (maxlen flags : Nat) (deque : MpObjDeque α) (queue : List α) : Prop where
  alloc : deque.alloc = maxlen + 1
  flags : deque.flags = flags
  room : deque.alloc ≤ deque.slots
  ring : Ring.Represents deque.alloc deque.items deque.iGet deque.iPut (queue.map some)

namespace MpObjDeque.Holds

variable {maxlen flags : Nat} {deque : MpObjDeque α} {queue : List α}

theorem wrapped_eq {index : Nat} (inside : index < deque.alloc) :
    deque.wrapped index = Ring.next deque.alloc index := by
  rw [wrapped, Ring.next]
  split_ifs <;> omega

section

variable (holds : deque.Holds maxlen flags queue)

include holds

theorem contents_eq : deque.contents = queue := by
  rw [contents, holds.ring.entries_eq]
  rw [reduceOption, filterMap_map]
  exact filterMap_some

theorem iPut_lt : deque.iPut < deque.alloc := by
  have short := holds.ring.short
  have inside := holds.ring.inside
  rw [holds.ring.writeAt, Ring.place]
  split_ifs <;> omega

theorem full_iff :
    deque.wrapped deque.iPut = deque.iGet ↔ ¬queue.length < maxlen := by
  have short := holds.ring.short
  rw [length_map] at short
  rw [wrapped_eq holds.iPut_lt, holds.ring.next_eq_iff, length_map, holds.alloc]
  have alloc := holds.alloc
  omega

theorem append_room (room : queue.length < maxlen) (arg : α) :
    ∃ next, deque.append arg = some (.none_, next) ∧
      next.Holds maxlen flags (queue ++ [arg]) := by
  have notFull : ¬deque.wrapped deque.iPut = deque.iGet := fun full =>
    holds.full_iff.mp full room
  have inside := holds.iPut_lt
  have isRoom := holds.room
  refine ⟨{ deque with
      items := Function.update deque.items deque.iPut (some arg)
      iPut := deque.wrapped deque.iPut }, ?_, holds.alloc, holds.flags, holds.room, ?_⟩
  · rw [append]
    simp only [beq_eq_false_iff_ne.mpr notFull, Bool.and_false]
    rw [if_neg Bool.false_ne_true, if_pos (inside.trans_le isRoom), if_neg (Ne.symm notFull)]
  · have pushed := holds.ring.push
      (by rw [length_map, holds.alloc]; omega) (some arg)
    rw [← wrapped_eq inside] at pushed
    rwa [map_append]

/-- An item more, and the oldest one less. -/
theorem append_full (full : ¬queue.length < maxlen) (unchecked : checkOverflow flags = false)
    (arg : α) :
    ∃ next, deque.append arg = some (.none_, next) ∧
      next.Holds maxlen flags (queue ++ [arg]).tail := by
  have meets := holds.full_iff.mpr full
  have inside := holds.iPut_lt
  have isRoom := holds.room
  refine ⟨{ deque with
      items := Function.update deque.items deque.iPut (some arg)
      iPut := deque.wrapped deque.iPut
      iGet := deque.wrapped deque.iGet }, ?_, holds.alloc, holds.flags, holds.room, ?_⟩
  · rw [append, holds.flags, unchecked, Bool.false_and]
    rw [if_neg Bool.false_ne_true, if_pos (inside.trans_le isRoom), if_pos meets.symm]
  · rw [wrapped_eq holds.ring.inside, wrapped_eq inside]
    cases queue with
    | nil =>
      -- The only cell is written, and both indices come back to it.
      have one : deque.alloc = 1 := by
        rw [holds.alloc]
        rw [length_nil] at full
        omega
      have first : deque.iPut = deque.iGet := holds.ring.eq_iff.mpr rfl |>.symm
      rw [first]
      exact .empty _ (Ring.next_lt holds.ring.inside)
    | cons oldest queue =>
      have popped := holds.ring.pop (by rw [map_cons]; exact cons_ne_nil _ _)
      rw [map_cons, tail_cons] at popped
      have short := holds.ring.short
      rw [map_cons, length_cons] at short
      have pushed := popped.push short (some arg)
      rwa [cons_append, tail_cons, map_append]

theorem append_checked (full : ¬queue.length < maxlen) (checked : checkOverflow flags = true)
    (arg : α) :
    deque.append arg = some (.indexError "full", deque) := by
  have meets := holds.full_iff.mpr full
  rw [append, holds.flags, checked]
  simp only [meets, beq_self_eq_true, Bool.and_true]
  rfl

end

theorem popleft_cons {item : α} (holds : deque.Holds maxlen flags (item :: queue)) :
    ∃ next, deque.popleft = some (.item (some item), next) ∧ next.Holds maxlen flags queue := by
  have some_ : ((item :: queue).map some) ≠ [] := cons_ne_nil _ _
  have differ : ¬deque.iGet = deque.iPut := fun same => some_ (holds.ring.eq_iff.mp same)
  have inside := holds.ring.inside
  have isRoom := holds.room
  have oldest := holds.ring.head some_
  rw [map_cons, List.head?_cons, Option.some.injEq] at oldest
  refine ⟨{ deque with
      items := Function.update deque.items deque.iGet none
      iGet := deque.wrapped deque.iGet }, ?_, holds.alloc, holds.flags, holds.room, ?_⟩
  · rw [popleft, if_neg differ, if_pos (inside.trans_le isRoom), ← oldest]
  · have popped := holds.ring.popCleared some_ none
    rwa [← wrapped_eq inside, map_cons, tail_cons] at popped

theorem len_eq (holds : deque.Holds maxlen flags queue) : deque.len = queue.length := by
  have length := holds.ring.length_eq
  have inside := holds.ring.inside
  rw [length_map] at length
  rw [len, length]
  split_ifs <;> omega

/-- One call is answered as the queue answers it. -/
theorem call_spec (holds : deque.Holds maxlen flags queue) (call : DequeCall α) :
    ∃ answer next after, deque.call call = some (answer, next) ∧
      boundedFifo maxlen (checkOverflow flags) queue call = some (answer, after) ∧
      next.Holds maxlen flags after := by
  cases call with
  | append arg =>
    rw [MpObjDeque.call, boundedFifo]
    by_cases room : queue.length < maxlen
    · obtain ⟨next, appends, now⟩ := holds.append_room room arg
      rw [if_pos room]
      exact ⟨_, next, _, appends, rfl, now⟩
    · rw [if_neg room]
      cases isChecked : checkOverflow flags with
      | true => exact ⟨_, deque, queue, holds.append_checked room isChecked arg, rfl, holds⟩
      | false =>
        obtain ⟨next, appends, now⟩ := holds.append_full room isChecked arg
        exact ⟨_, next, _, appends, rfl, now⟩
  | popleft =>
    cases queue with
    | nil =>
      refine ⟨_, deque, [], ?_, rfl, holds⟩
      rw [MpObjDeque.call, popleft, if_pos (holds.ring.eq_iff.mpr rfl)]
    | cons item queue =>
      obtain ⟨next, pops, now⟩ := holds.popleft_cons
      exact ⟨_, next, queue, pops, rfl, now⟩
  | len => exact ⟨_, deque, queue, by rw [MpObjDeque.call, holds.len_eq], rfl, holds⟩
  | bool =>
    refine ⟨_, deque, queue, rfl, ?_, holds⟩
    have meets := holds.ring.eq_iff
    rw [map_eq_nil_iff] at meets
    rw [boundedFifo]
    congr 3
    rw [Bool.eq_iff_iff, bne_iff_ne, Ne, meets, Bool.not_eq_true', isEmpty_eq_false_iff]

/-- A deque that holds a queue acts as the queue. -/
theorem responses_eq (holds : deque.Holds maxlen flags queue) (calls : List (DequeCall α)) :
    (responses MpObjDeque.call deque calls).map (Option.map (Prod.map id contents)) =
      responses (boundedFifo maxlen (checkOverflow flags)) queue calls := by
  induction calls generalizing deque queue with
  | nil => rfl
  | cons call calls ih =>
    obtain ⟨answer, next, after, answers, same, now⟩ := holds.call_spec call
    rw [responses, responses, answers, same]
    simp only [map_cons, Option.map_some, Prod.map_apply, id_eq, now.contents_eq]
    rw [ih now]

end MpObjDeque.Holds

/-! ## Deques that do not act as a queue -/

theorem boundedFifo_answers (maxlen : Nat) (check : Bool) (queue : List α) (call : DequeCall α) :
    ∃ answer next, boundedFifo maxlen check queue call = some (answer, next) := by
  cases call with
  | append arg =>
    rw [boundedFifo]
    split_ifs <;> exact ⟨_, _, rfl⟩
  | popleft =>
    cases queue with
    | nil => exact ⟨_, _, rfl⟩
    | cons item queue => exact ⟨_, _, rfl⟩
  | len => exact ⟨_, _, rfl⟩
  | bool => exact ⟨_, _, rfl⟩

theorem none_notMem_boundedFifo (maxlen : Nat) (check : Bool) (queue : List α)
    (calls : List (DequeCall α)) : none ∉ responses (boundedFifo maxlen check) queue calls := by
  induction calls generalizing queue with
  | nil => exact not_mem_nil
  | cons call calls ih =>
    obtain ⟨answer, next, answers⟩ := boundedFifo_answers maxlen check queue call
    rw [responses, answers, mem_cons]
    rintro (same | later)
    · cases same
    · exact ih next later

theorem boundedFifo_bounded (maxlen : Nat) (check : Bool) (calls : List (DequeCall α)) :
    ∀ answer queue, some (answer, queue) ∈ responses (boundedFifo maxlen check) [] calls →
      queue.length ≤ maxlen :=
  responses_invariant (fun queue : List α => queue.length ≤ maxlen) (fun _ _ => True)
    (fun fits _ answered => boundedFifo_length fits answered) (Nat.zero_le _) calls
    fun _ _ => trivial

theorem checked_refuses {maxlen more : Nat} {queue : List α} (length : queue.length + more = maxlen)
    (arg : α) : ∃ left, some (.indexError "full", left) ∈
      responses (boundedFifo maxlen true) queue (List.replicate (more + 1) (.append arg)) := by
  induction more generalizing queue with
  | zero =>
    have full : ¬queue.length < maxlen := by omega
    refine ⟨queue, ?_⟩
    rw [replicate_succ, responses, boundedFifo, if_neg full, if_pos rfl]
    exact mem_cons_self
  | succ more ih =>
    have room : queue.length < maxlen := by omega
    obtain ⟨left, member⟩ := @ih (queue ++ [arg])
      (by rw [length_append, length_singleton]; omega)
    refine ⟨left, ?_⟩
    rw [replicate_succ, responses, boundedFifo, if_pos room]
    exact mem_cons_of_mem _ member

theorem unchecked_accepts {queue left : List α} (arg : α) (count : Nat)
    (member : some (answer, left) ∈
      responses (boundedFifo maxlen false) queue (List.replicate count (.append arg))) :
    answer = .none_ := by
  induction count generalizing queue with
  | zero => cases member
  | succ count ih =>
    obtain ⟨next, appends⟩ : ∃ next, boundedFifo maxlen false queue (.append arg) =
        some (.none_, next) := by
      rw [boundedFifo]
      by_cases room : queue.length < maxlen
      · exact ⟨_, if_pos room⟩
      · exact ⟨_, if_neg room⟩
    rw [replicate_succ, responses, appends, mem_cons] at member
    rcases member with same | later
    · cases same
      rfl
    · exact ih later

/-- Items behind the memory of the ring are stored. -/
theorem MpObjDeque.append_outside {deque : MpObjDeque α} {more : Nat} (start : deque.iGet = 0)
    (left : deque.iPut + more = deque.slots) (short : deque.slots + 1 < deque.alloc) (arg : α) :
    none ∈ responses MpObjDeque.call deque (List.replicate (more + 1) (.append arg)) := by
  have further : deque.wrapped deque.iPut = deque.iPut + 1 := by
    rw [wrapped, if_neg (by omega)]
  have notFull : (deque.wrapped deque.iPut == deque.iGet) = false := by
    rw [further, start]
    rfl
  induction more generalizing deque with
  | zero =>
    have outside : ¬deque.iPut < deque.slots := by omega
    rw [replicate_succ, responses, MpObjDeque.call, append, notFull, Bool.and_false,
      if_neg Bool.false_ne_true, if_neg outside]
    exact mem_cons_self
  | succ more ih =>
    have inside : deque.iPut < deque.slots := by omega
    have stays : ¬deque.iGet = deque.wrapped deque.iPut := by
      rw [further, start]
      exact (Nat.succ_ne_zero _).symm
    rw [replicate_succ, responses, MpObjDeque.call, append, notFull, Bool.and_false,
      if_neg Bool.false_ne_true, if_pos inside, if_neg stays]
    refine mem_cons_of_mem _ (ih start ?_ short ?_ ?_)
    · simp only [further]
      omega
    · rw [wrapped, if_neg]
      simp only [further]
      omega
    · rw [wrapped, if_neg]
      · simp only [start]
        rfl
      · simp only [further]
        omega

/-! ## New deques -/

section New

variable {config : SeqConfig}

theorem slots_iff (config : SeqConfig) (alloc : Nat) :
    alloc ≤ config.objSize * alloc % 2 ^ config.wordBits / config.objSize ↔
      config.objSize * alloc < 2 ^ config.wordBits := by
  rw [Nat.le_div_iff_mul_le config.objSizePositive, Nat.mul_comm alloc,
    le_mod_iff (Nat.two_pow_pos _)]

theorem slots_lt (wraps : 2 ^ config.wordBits ≤ config.objSize * (maxlen + 1)) :
    config.objSize * (maxlen + 1) % 2 ^ config.wordBits / config.objSize < maxlen := by
  have small := config.smallestList
  have positive := config.objSizePositive
  rw [Nat.div_lt_iff_lt_mul positive, Nat.mod_eq_sub_mod wraps]
  have le := Nat.mod_le (config.objSize * (maxlen + 1) - 2 ^ config.wordBits)
    (2 ^ config.wordBits)
  rw [Nat.mul_succ] at *
  rw [Nat.mul_comm maxlen]
  omega

/-- What a caller of `deque` asks for: a given flag, or none. -/
def asksCheck : Option Int → Bool
  | some flags => flags % 2 == 1
  | none => false

theorem checkOverflow_eq (flags : Nat) : MpObjDeque.checkOverflow flags = (flags % 2 == 1) := by
  rw [MpObjDeque.checkOverflow, Nat.and_one_is_mod]
  rcases Nat.mod_two_eq_zero_or_one flags with even | odd
  · rw [even]
    rfl
  · rw [odd]
    rfl

theorem newFlags_check (held : Nat) (flags : Option Int) :
    MpObjDeque.checkOverflow (newFlags held flags) = asksCheck flags ↔
      (flags = none → held % 2 = 0) := by
  rw [checkOverflow_eq]
  cases flags with
  | some flags =>
    refine iff_of_true ?_ (fun impossible => by cases impossible)
    rw [newFlags, asksCheck, Bool.eq_iff_iff, beq_iff_eq, beq_iff_eq]
    omega
  | none =>
    rw [newFlags, asksCheck, beq_eq_false_iff_ne, imp_iff_right rfl]
    omega

/-- A new deque without items. -/
def MpObjDeque.new (config : SeqConfig) (held maxlen : Nat) (flags : Option Int) : MpObjDeque α where
  alloc := maxlen + 1
  iGet := 0
  iPut := 0
  slots := config.objSize * (maxlen + 1) % 2 ^ config.wordBits / config.objSize
  items := fun _ => none
  flags := newFlags held flags

theorem dequeMakeNew_eq (config : SeqConfig) (dequeObjSize : Nat) (granted : Nat → Nat → Bool)
    (held maxlen : Nat) (flags : Option Int) :
    @dequeMakeNew α config dequeObjSize granted held maxlen flags =
      if granted 0 dequeObjSize && granted 1 (config.objSize * (maxlen + 1) %
        2 ^ config.wordBits) then .ok (.new config held maxlen flags)
      else .error .memoryError := by
  have nonnegative : ¬(maxlen : Int) < 0 := by omega
  rw [dequeMakeNew, if_neg nonnegative, Int.toNat_natCast]
  rfl

theorem MpObjDeque.new_holds {held maxlen : Nat} {flags : Option Int}
    (fits : config.objSize * (maxlen + 1) < 2 ^ config.wordBits) :
    (@MpObjDeque.new α config held maxlen flags).Holds maxlen (newFlags held flags) [] :=
  ⟨rfl, rfl, (slots_iff config _).mpr fits, .empty _ (Nat.succ_pos _)⟩

end New

end MultiPython.Obj
