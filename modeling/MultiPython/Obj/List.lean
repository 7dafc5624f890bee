import MultiPython.Obj.Array

/-!
# Lists

`py/objlist.c`: the operations that change a list, with the policy of each for the size of its block.
As for arrays, a copy that leaves the block or reads one that has been freed has no result. A call
carries what the allocator answers to it.
-/

namespace MultiPython.Obj

open Logic Str List Option

/-- `mp_obj_list_t`. -/
structure MpList (α : Type) where
  alloc : Nat
  len : Nat
  items : List α
deriving DecidableEq, Repr

/-- The exceptions of the operations; the last one is that of an iterable. -/
inductive ListError where
  | typeError
  | indexError
  | valueError
  | notImplemented
  | overflow
  | memory
  | iterable
deriving DecidableEq, Repr

/-- How an operation ends. -/
inductive ListEnd (α : Type) where
  | returned
  | gave (item : α)
  | made (copied : MpList α)
  | raised (error : ListError)
deriving DecidableEq, Repr

/-- An object that is used as an index: a small integer, or another one with its word and the integer
that it is, if it is one. -/
inductive IndexObj where
  | small (value : Int)
  | object (word : Int) (value : Option Int)
deriving DecidableEq, Repr

/-- A slice object. -/
structure SliceObj where
  start : Option Int
  stop : Option Int
  step : Option Int
deriving DecidableEq, Repr

/-- The items of the list itself, or those of another list or tuple. -/
inductive ListSource (α : Type) where
  | self
  | other (items : List α)

instance (wordBits : Nat) (i : Int) : Decidable (IsMachineInt wordBits i) :=
  inferInstanceAs (Decidable (_ ∧ _))

/-- `MP_OBJ_SMALL_INT_VALUE`, which does not look at the kind of the object. -/
def IndexObj.smallIntValue : IndexObj → Int
  | .small value => value
  | .object word _ => word / 2

/-- The integer that an object is. -/
def IndexObj.value : IndexObj → Option Int
  | .small value => some value
  | .object _ value => value

/-- A source as one of an array. -/
def ListSource.inArray {α : Type} : ListSource α → ArraySource α
  | .self => .self
  | .other items => .other items

variable {α : Type} (wordBits itemSize : Nat) (null none_ : α)

/-- A list as an array whose free items are those behind its length. -/
def MpList.inArray (self : MpList α) : MpArray α :=
  { len := self.len, free := self.alloc - self.len, items := self.items }

/-- The number of items of a source. -/
def ListSource.count (self : MpList α) (src : ListSource α) : Nat := src.inArray.count self.inArray

/-- `mp_obj_get_int` of an integer. -/
def objGetInt (i : Int) : Except ListError Int :=
  if IsMachineInt wordBits i then .ok i else .error .overflow

/-- `mp_get_index`. -/
def getIndex (len : Nat) (index : IndexObj) : Except ListError Nat := do
  let i ← match index with
    | .small value => .ok value
    | .object _ none => .error .typeError
    | .object _ (some value) => objGetInt wordBits value
  let i := if i < 0 then i + len else i
  if i < 0 ∨ i ≥ len then .error .indexError else .ok i.toNat

/-- The step of `mp_seq_get_fast_slice_indexes`. -/
def sliceStep : Option Int → Except ListError Int
  | none => .ok 1
  | some step =>
    if step = 1 then .ok 1
    else do
      let step ← objGetInt wordBits step
      if step = 0 then .error .valueError else .ok step

/-- An end in `mp_seq_get_fast_slice_indexes`. -/
def sliceBound : Option Int → Except ListError (Option Int)
  | none => .ok none
  | some i => (objGetInt wordBits i).map some

/-- `mp_seq_get_fast_slice_indexes` where only a step of 1 is implemented. -/
def fastSliceOf (len : Nat) (slice : SliceObj) : Except ListError (Nat × Nat) := do
  let step ← sliceStep wordBits slice.step
  let start ← sliceBound wordBits slice.start
  let stop ← sliceBound wordBits slice.stop
  if step = 1 then .ok (fastSliceIndexes len start stop) else .error .notImplemented

/-- `mp_seq_clear`. -/
def seqClear (items : List α) (len allocLen : Nat) : Option (List α) :=
  storeAt items len (List.replicate (allocLen - len) null)

/-- The end of `mp_obj_list_append`. -/
def listPut (self : MpList α) (arg : α) : Option (ListEnd α × MpList α) :=
  (storeAt self.items self.len [arg]).map fun items =>
    (.returned, { self with len := self.len + 1, items := items })

/-- `mp_obj_list_append`. -/
def listAppend (self : MpList α) (arg : α) (answer : BlockAnswer α) :
    Option (ListEnd α × MpList α) :=
  if self.len ≥ self.alloc then
    match renewItems wordBits itemSize self.items (self.alloc * 2) answer with
    | none => some (.raised .memory, self)
    | some (_, items) => do
        let items ← seqClear null items (self.len + 1) (self.alloc * 2)
        listPut { self with alloc := self.alloc * 2, items := items } arg
  else listPut self arg

/-- The copy at the end of `list_extend`, whose source is looked up after the block is renewed. -/
def listExtendBy (self : MpList α) (src : ListSource α) (count : Nat) :
    Option (ListEnd α × MpList α) :=
  (copyInto src.inArray count false false self.items self.len).map fun items =>
    (.returned, { self with len := self.len + count, items := items })

/-- `list_extend` by a list. -/
def listExtend (self : MpList α) (src : ListSource α) (answer : BlockAnswer α) :
    Option (ListEnd α × MpList α) :=
  let argLen := src.count self
  if self.len + argLen > self.alloc then
    match renewItems wordBits itemSize self.items (self.len + argLen + 4) answer with
    | none => some (.raised .memory, self)
    | some (_, items) => do
        let items ← seqClear null items (self.len + argLen) (self.len + argLen + 4)
        listExtendBy { self with alloc := self.len + argLen + 4, items := items } src argLen
  else listExtendBy self src argLen

/-- `list_extend_from_iter`, for what the iterator gives and whether it stops after it or raises. -/
def listExtendFromIter (stops : Bool) (self : MpList α) :
    List (α × BlockAnswer α) → Option (ListEnd α × MpList α)
  | [] => some (if stops then .returned else .raised .iterable, self)
  | (item, answer) :: items =>
    match listAppend wordBits itemSize null self item answer with
    | some (.returned, self) => listExtendFromIter stops self items
    | ended => ended

/-- `list_pop` from where it knows the index. -/
def listPopAt (self : MpList α) (index : Nat) (answer : BlockAnswer α) :
    Option (ListEnd α × MpList α) := do
  let ret ← self.items[index]?
  let len := self.len - 1
  let tail ← loadAt self.items (index + 1) (len - index)
  let moved ← storeAt self.items index tail
  let items ← storeAt moved len [null]
  let popped := { self with len := len, items := items }
  if self.alloc > 4 ∧ self.alloc > 2 * len then
    match renewItems wordBits itemSize items (self.alloc / 2) answer with
    | none => some (.raised .memory, popped)
    | some (_, items) => some (.gave ret, { popped with alloc := self.alloc / 2, items := items })
  else some (.gave ret, popped)

def listPop (self : MpList α) (index : IndexObj) (answer : BlockAnswer α) :
    Option (ListEnd α × MpList α) :=
  if self.len = 0 then some (.raised .indexError, self)
  else
    match getIndex wordBits self.len index with
    | .error error => some (.raised error, self)
    | .ok index => listPopAt wordBits itemSize null self index answer

/-- The item of `list_pop` is dropped. -/
def ListEnd.dropItem : ListEnd α → ListEnd α
  | .gave _ => .returned
  | ended => ended

/-- `list_subscr` that deletes an item. -/
def listDelete (self : MpList α) (index : IndexObj) (answer : BlockAnswer α) :
    Option (ListEnd α × MpList α) :=
  (listPop wordBits itemSize null self index answer).map fun (ended, self) => (ended.dropItem, self)

/-- `mp_seq_index_obj`, for the items that are equal to the object. -/
def seqIndexObj (self : MpList α) (equal : α → Bool) : Except ListError Nat :=
  match (self.items.take self.len).findIdx? equal with
  | some i => .ok i
  | none => .error .valueError

/-- `mp_obj_list_remove`. -/
def listRemove (self : MpList α) (equal : α → Bool) (answer : BlockAnswer α) :
    Option (ListEnd α × MpList α) :=
  match seqIndexObj self equal with
  | .error error => some (.raised error, self)
  | .ok index => listDelete wordBits itemSize null self (.small index) answer

/-- The index of `list_insert`. -/
def insertIndex (len : Nat) (index : Int) : Nat :=
  let index := if index < 0 then index + len else index
  let index := if index < 0 then 0 else index
  (if index > len then (len : Int) else index).toNat

/-- The loop of `list_insert`. -/
def insertShift (index : Nat) : Nat → List α → Option (List α)
  | 0, items => some items
  | i + 1, items =>
    if i + 1 > index then do
      let item ← items[i]?
      let items ← storeAt items (i + 1) [item]
      insertShift index i items
    else some items

def listInsert (self : MpList α) (idx : IndexObj) (obj : α) (answer : BlockAnswer α) :
    Option (ListEnd α × MpList α) :=
  let index := insertIndex self.len idx.smallIntValue
  match listAppend wordBits itemSize null self none_ answer with
  | some (.returned, self) => do
      let items ← insertShift index (self.len - 1) self.items
      let items ← storeAt items index [obj]
      some (.returned, { self with items := items })
  | ended => ended

/-- `mp_obj_list_store`. -/
def listStore (self : MpList α) (index : IndexObj) (value : α) : Option (ListEnd α × MpList α) :=
  match getIndex wordBits self.len index with
  | .error error => some (.raised error, self)
  | .ok i => (storeAt self.items i [value]).map fun items =>
    (.returned, { self with items := items })

/-- `mp_seq_replace_slice_no_grow` of a list, where a copy of the items onto themselves changes
nothing. -/
def listReplaceNoGrow (self : MpList α) (start stop : Nat) (src : ListSource α) (srcLen : Nat) :
    Option (List α) :=
  if src.inArray.start = some start then do
    let tail ← loadAt self.items stop (self.len - stop)
    storeAt self.items (start + srcLen) tail
  else replaceSliceNoGrow self.items self.len start stop src.inArray srcLen

/-- `list_subscr` with a slice that does not become longer. -/
def listShrinkSlice (self : MpList α) (start stop : Nat) (src : ListSource α) (srcLen : Nat) :
    Option (ListEnd α × MpList α) := do
  let items ← listReplaceNoGrow self start stop src srcLen
  let len := self.len - (stop - start - srcLen)
  let items ← seqClear null items len self.len
  some (.returned, { self with len := len, items := items })

/-- `list_subscr` that assigns to a slice. -/
def listAssignAt (self : MpList α) (start stop : Nat) (src : ListSource α) (answer : BlockAnswer α) :
    Option (ListEnd α × MpList α) :=
  let valueLen := src.count self
  if valueLen > stop - start then
    let lenAdj := valueLen - (stop - start)
    if self.len + lenAdj > self.alloc then
      match renewItems wordBits itemSize self.items (self.len + lenAdj) answer with
      | none => some (.raised .memory, self)
      | some (moved, items) =>
        (replaceSliceGrow items self.len start stop src.inArray valueLen moved).map fun items =>
          (.returned, { alloc := self.len + lenAdj, len := self.len + lenAdj, items := items })
    else
      (replaceSliceGrow self.items self.len start stop src.inArray valueLen false).map fun items =>
        (.returned, { self with len := self.len + lenAdj, items := items })
  else listShrinkSlice null self start stop src valueLen

/-- `list_subscr` that assigns to a slice, where the value may be no list or tuple. -/
def listAssign (self : MpList α) (slice : SliceObj) (value : Option (ListSource α))
    (answer : BlockAnswer α) : Option (ListEnd α × MpList α) :=
  match value with
  | none => some (.raised .typeError, self)
  | some src =>
    match fastSliceOf wordBits self.len slice with
    | .error error => some (.raised error, self)
    | .ok (start, stop) => listAssignAt wordBits itemSize null self start stop src answer

/-- `list_subscr` that deletes a slice. -/
def listDeleteSlice (self : MpList α) (slice : SliceObj) : Option (ListEnd α × MpList α) :=
  match fastSliceOf wordBits self.len slice with
  | .error error => some (.raised error, self)
  | .ok (start, stop) => listShrinkSlice null self start stop (.other []) 0

def listClear (self : MpList α) (answer : BlockAnswer α) : Option (ListEnd α × MpList α) :=
  let self := { self with len := 0 }
  match renewItems wordBits itemSize self.items 4 answer with
  | none => some (.raised .memory, self)
  | some (_, items) => (seqClear null items 0 4).map fun items =>
    (.returned, { self with alloc := 4, items := items })

/-- `list_new`; nothing inside if there is no memory. -/
def listNew (n : Nat) (answer : BlockAnswer α) : Option (Option (MpList α)) :=
  let alloc := if n < 4 then 4 else n
  match renewItems wordBits itemSize [] alloc answer with
  | none => some none
  | some (_, items) => (seqClear null items n alloc).map fun items =>
    some { alloc := alloc, len := n, items := items }

/-- `mp_obj_new_list`. -/
def objNewList (items : List α) (answer : BlockAnswer α) : Option (Option (MpList α)) := do
  match ← listNew wordBits itemSize null items.length answer with
  | none => some none
  | some o => (storeAt o.items 0 items).map fun items => some { o with items := items }

def listCopy (self : MpList α) (answer : BlockAnswer α) : Option (ListEnd α × MpList α) := do
  let items ← loadAt self.items 0 self.len
  match ← objNewList wordBits itemSize null items answer with
  | none => some (.raised .memory, self)
  | some made => some (.made made, self)

/-- The operations that change or copy a list. -/
inductive ListCall (α : Type) where
  | append (arg : α) (answer : BlockAnswer α)
  | extend (src : ListSource α) (answer : BlockAnswer α)
  | extendFromIter (items : List (α × BlockAnswer α)) (stops : Bool)
  | insert (idx : IndexObj) (obj : α) (answer : BlockAnswer α)
  | pop (index : IndexObj) (answer : BlockAnswer α)
  | remove (equal : α → Bool) (answer : BlockAnswer α)
  | store (index : IndexObj) (value : α)
  | assign (slice : SliceObj) (value : Option (ListSource α)) (answer : BlockAnswer α)
  | delete (index : IndexObj) (answer : BlockAnswer α)
  | deleteSlice (slice : SliceObj)
  | clear (answer : BlockAnswer α)
  | copy (answer : BlockAnswer α)

/-- Perform an operation. -/
def listCall (self : MpList α) : ListCall α → Option (ListEnd α × MpList α)
  | .append arg answer => listAppend wordBits itemSize null self arg answer
  | .extend src answer => listExtend wordBits itemSize null self src answer
  | .extendFromIter items stops => listExtendFromIter wordBits itemSize null stops self items
  | .insert idx obj answer => listInsert wordBits itemSize null none_ self idx obj answer
  | .pop index answer => listPop wordBits itemSize null self index answer
  | .remove equal answer => listRemove wordBits itemSize null self equal answer
  | .store index value => listStore wordBits self index value
  | .assign slice value answer => listAssign wordBits itemSize null self slice value answer
  | .delete index answer => listDelete wordBits itemSize null self index answer
  | .deleteSlice slice => listDeleteSlice wordBits null self slice
  | .clear answer => listClear wordBits itemSize null self answer
  | .copy answer => listCopy wordBits itemSize null self answer

/-! ## Lists of items -/

/-- The items of a list. -/
def MpList.held (o : MpList α) : List α := o.items.take o.len

/-- The items of a source, when the list holds some items. -/
def ListSource.items (held : List α) : ListSource α → List α
  | .self => held
  | .other items => items

/-- The place of an index in a list, if it is one. -/
def listPlace (count : Nat) (index : IndexObj) : Option Nat :=
  index.value.bind fun i =>
    if 0 ≤ i ∧ i < count then some i.toNat
    else if -count ≤ i ∧ i < 0 then some (count + i).toNat
    else none

/-- The ends of a slice that can be assigned to: its step is 1, and its ends are integers of the
machine. -/
def listSliceBounds (count : Nat) (slice : SliceObj) : Option (Nat × Nat) :=
  if slice.step.getD 1 = 1 ∧ (∀ i ∈ slice.start, IsMachineInt wordBits i) ∧
      ∀ i ∈ slice.stop, IsMachineInt wordBits i then
    some (listBounds count slice.start slice.stop)
  else none

/-- An operation is refused, and leaves the list as it was. -/
def Refused (o : MpList α) (ended : ListEnd α) (next : MpList α) : Prop :=
  (∃ error, error ≠ .memory ∧ ended = .raised error) ∧ next = o

/-- There is no memory for an operation, and the list is as it was. -/
def NoMemory (o : MpList α) (answer : BlockAnswer α) (ended : ListEnd α) (next : MpList α) : Prop :=
  answer = none ∧ ended = .raised .memory ∧ next = o

/-- The item at an index is removed, also if the block cannot be made smaller then. -/
def Removes (o : MpList α) (index : Nat) (answer : BlockAnswer α) (result : α → ListEnd α)
    (ended : ListEnd α) (next : MpList α) : Prop :=
  next.held = o.held.eraseIdx index ∧
    ((∃ item, o.held[index]? = some item ∧ ended = result item) ∨
      (answer = none ∧ ended = .raised .memory))

/-- An operation does something at a place, or is refused if there is none. -/
def AtPlace {β : Type} (place : Option β) (o : MpList α) (ended : ListEnd α) (next : MpList α)
    (does : β → Prop) : Prop :=
  match place with
  | none => Refused o ended next
  | some found => does found

/-- The length of a list is inside of its block, and it knows the size of that. -/
structure MpList.Sound (o : MpList α) : Prop where
  len : o.len ≤ o.alloc
  some_ : 1 ≤ o.alloc
  block : o.alloc = o.items.length

/-- What an operation does to the items of a list. -/
def ListCall.Does (o : MpList α) (ended : ListEnd α) (next : MpList α) : ListCall α → Prop
  | .append arg answer =>
    (ended = .returned ∧ next.held = o.held ++ [arg]) ∨ NoMemory o answer ended next
  | .extend src answer =>
    (ended = .returned ∧ next.held = o.held ++ src.items o.held) ∨ NoMemory o answer ended next
  | .extendFromIter items stops =>
    (ended = (if stops then .returned else .raised .iterable) ∧
      next.held = o.held ++ items.map Prod.fst) ∨
    ∃ k item, items[k]? = some (item, none) ∧ ended = .raised .memory ∧
      next.held = o.held ++ (items.take k).map Prod.fst
  | .insert idx obj answer =>
    (∃ i, idx.value = some i ∧ ended = .returned ∧
      next.held = o.held.insertIdx (clampedEnd o.held.length 0 (some i)) obj) ∨
    NoMemory o answer ended next
  | .pop index answer =>
    AtPlace (listPlace o.held.length index) o ended next fun i =>
      Removes o i answer .gave ended next
  | .remove equal answer =>
    AtPlace (o.held.findIdx? equal) o ended next fun i =>
      Removes o i answer (fun _ => .returned) ended next
  | .store index value =>
    AtPlace (listPlace o.held.length index) o ended next fun i =>
      ended = .returned ∧ next.held = o.held.set i value
  | .assign _ none _ => Refused o ended next
  | .assign slice (some src) answer =>
    AtPlace (listSliceBounds wordBits o.held.length slice) o ended next fun (first, last) =>
      (ended = .returned ∧
        next.held = o.held.take first ++ src.items o.held ++ o.held.drop last) ∨
      NoMemory o answer ended next
  | .delete index answer =>
    AtPlace (listPlace o.held.length index) o ended next fun i =>
      Removes o i answer (fun _ => .returned) ended next
  | .deleteSlice slice =>
    AtPlace (listSliceBounds wordBits o.held.length slice) o ended next fun (first, last) =>
      ended = .returned ∧ next.held = o.held.take first ++ o.held.drop last
  | .clear answer =>
    next.held = [] ∧ (ended = .returned ∨ (answer = none ∧ ended = .raised .memory))
  | .copy answer =>
    (∃ copied, ended = .made copied ∧ copied.Sound ∧ copied.held = o.held ∧ next = o) ∨
    NoMemory o answer ended next

/-- What an operation should do: it keeps the list sound, and does to the items what it does to a
list. -/
structure ListMeets (o : MpList α) (call : ListCall α) (ended : ListEnd α) (next : MpList α) :
    Prop where
  sound : next.Sound
  does : call.Does wordBits o ended next

/-- A block for some items has them all, or there is none. -/
def RenewFits (n : Nat) (answer : BlockAnswer α) : Prop :=
  BlockFits wordBits itemSize n ∨ (answer = none ∧ cells wordBits itemSize n ≠ 0)

/-- An append does what it should: there is room, or the block becomes as large as it is said. -/
def AppendFits (o : MpList α) (answer : BlockAnswer α) : Prop :=
  o.len < o.alloc ∨ RenewFits wordBits itemSize (o.alloc * 2) answer

/-- Every append of the items of an iterable does what it should. -/
def ItersFit (o : MpList α) : List (α × BlockAnswer α) → Prop
  | [] => True
  | (item, answer) :: items =>
    AppendFits wordBits itemSize o answer ∧
      ∀ next, listAppend wordBits itemSize null o item answer = some (.returned, next) →
        ItersFit next items

/-- The condition under which an operation does what it should: sizes are words; an index that is no
small integer would be at the same place if its object was read as one; and the list is not assigned
to a slice of its own when its block moves. -/
def ListCall.Fits (o : MpList α) : ListCall α → Prop
  | .append _ answer => AppendFits wordBits itemSize o answer
  | .extend src answer =>
    o.len + src.count o ≤ o.alloc ∨
      RenewFits wordBits itemSize (o.len + src.count o + 4) answer
  | .extendFromIter items _ => ItersFit wordBits itemSize null o items
  | .insert idx _ answer =>
    AppendFits wordBits itemSize o answer ∧
      ((∃ i, idx.value = some i ∧
        clampedEnd o.len 0 (some idx.smallIntValue) = clampedEnd o.len 0 (some i)) ∨
      (o.len = o.alloc ∧ answer = none))
  | .assign slice (some src) answer =>
    ∀ bounds ∈ listSliceBounds wordBits o.len slice,
      o.len + src.count o ≤ o.alloc + (bounds.2 - bounds.1) ∨
        src.count o ≤ bounds.2 - bounds.1 ∨
        (RenewFits wordBits itemSize (o.len + (src.count o - (bounds.2 - bounds.1))) answer ∧
          ∀ answered ∈ answer, src.inArray.start = none ∨ answered.1 = false)
  | _ => True

/-- The list holds a list of items. -/
structure MpList.Holds (o : MpList α) (held : List α) : Prop where
  sound : o.Sound
  len : o.len = held.length
  word : BlockFits wordBits itemSize o.alloc
  contents : held <+: o.items

section Calls

variable {wordBits itemSize null none_} {o : MpList α} {held : List α}

theorem MpList.Holds.held_eq (holds : o.Holds wordBits itemSize held) : o.held = held := by
  rw [MpList.held, holds.len]
  exact (prefix_iff_eq_take.mp holds.contents).symm

variable {alloc len : Nat}

theorem MpList.Holds.of_block {items : List α} (isLen : len = held.length) (room : len ≤ alloc)
    (some_ : 1 ≤ alloc) (block : items.length = alloc) (word : BlockFits wordBits itemSize alloc)
    (contents : held <+: items) :
    MpList.Holds wordBits itemSize { alloc := alloc, len := len, items := items } held :=
  ⟨⟨room, some_, block.symm⟩, isLen, word, contents⟩

theorem MpList.Holds.inArray (holds : o.Holds wordBits itemSize held) :
    o.inArray.Holds wordBits itemSize held where
  len := holds.len
  inside := by
    have room := holds.sound.len
    have block := holds.sound.block
    show o.len + (o.alloc - o.len) ≤ o.items.length
    omega
  word := by
    show itemSize * o.items.length < 2 ^ wordBits
    rw [← holds.sound.block]
    exact holds.word
  contents := holds.contents

theorem ListSource.items_inArray (src : ListSource α) : src.inArray.items held = src.items held := by
  cases src <;> rfl

theorem ListSource.inside (src : ListSource α) : src.inArray.Inside o.inArray := by
  cases src <;> trivial

theorem ListSource.taken (src : ListSource α) : src.inArray ≠ .refused := by
  cases src <;> nofun

theorem ListSource.start_eq (src : ListSource α) {start : Nat} (from_ : src.inArray.start = some start) :
    src = .self ∧ start = 0 := by
  cases src with
  | self => exact ⟨rfl, (some.inj from_).symm⟩
  | other items => cases from_

theorem MpList.Holds.source (holds : o.Holds wordBits itemSize held) (src : ListSource α) :
    (src.items held).length = src.count o := by
  rw [← src.items_inArray]
  exact holds.inArray.source src.inside

theorem renewItems_fits (positive : 0 < itemSize) {n : Nat} (some_ : 0 < n) {answer : BlockAnswer α}
    (fits : RenewFits wordBits itemSize n answer) (items : List α) :
    (answer = none ∧ renewItems wordBits itemSize items n answer = none) ∨
      ∃ moves fill, answer = some (moves, fill) ∧ BlockFits wordBits itemSize n ∧
        renewItems wordBits itemSize items n answer = some (moves, resized fill n items) := by
  rcases fits with block | ⟨rfl, cells⟩
  · rw [renewItems_spec positive some_ block]
    cases answer with
    | none => exact .inl ⟨rfl, rfl⟩
    | some answered => exact .inr ⟨_, _, rfl, block, rfl⟩
  · exact .inl ⟨rfl, by rw [renewItems, if_neg cells, map_none]⟩

theorem seqClear_spec {items : List α} {len alloc : Nat} (contents : held <+: items)
    (behind : held.length ≤ len) (ordered : len ≤ alloc) (inside : alloc ≤ items.length) :
    ∃ cleared, seqClear null items len alloc = some cleared ∧ held <+: cleared ∧
      cleared.length = items.length := by
  obtain ⟨cleared, clears⟩ := @storeAt_isSome _ items (replicate (alloc - len) null) len
    (by rw [length_replicate]; omega)
  exact ⟨cleared, clears, storeAt_behind contents behind clears, length_of_storeAt clears⟩

theorem listPut_spec {items : List α} (arg : α) (isLen : len = held.length) (room : len < alloc)
    (block : items.length = alloc) (word : BlockFits wordBits itemSize alloc)
    (contents : held <+: items) :
    ∃ next, listPut { alloc := alloc, len := len, items := items } arg = some (.returned, next) ∧
      next.Holds wordBits itemSize (held ++ [arg]) := by
  obtain ⟨after, stored, holds, length⟩ := @storeAt_contents _ items held [arg] contents
    (by rw [length_singleton]; omega)
  rw [← isLen] at stored
  refine ⟨{ alloc := alloc, len := len + 1, items := after }, ?_, ?_⟩
  · simp only [listPut, stored, map_some]
  · refine .of_block ?_ (by omega) (by omega) (by omega) word holds
    rw [length_append, length_singleton, isLen]

theorem listAppend_spec (positive : 0 < itemSize) (holds : o.Holds wordBits itemSize held)
    {arg : α} {answer : BlockAnswer α} (fits : AppendFits wordBits itemSize o answer) :
    (listAppend wordBits itemSize null o arg answer = some (.raised .memory, o) ∧ answer = none) ∨
      ∃ next, listAppend wordBits itemSize null o arg answer = some (.returned, next) ∧
        next.Holds wordBits itemSize (held ++ [arg]) := by
  have len := holds.len
  have room := holds.sound.len
  have some_ := holds.sound.some_
  by_cases full : o.len ≥ o.alloc
  · rw [listAppend, if_pos full]
    rcases renewItems_fits positive (by omega : 0 < o.alloc * 2) (fits.resolve_left (by omega))
      o.items with ⟨none_, renews⟩ | ⟨moves, fill, -, block, renews⟩
    · exact .inl ⟨by rw [renews], none_⟩
    · have contents := prefix_resized holds.contents (by omega : held.length ≤ o.alloc * 2) fill
      obtain ⟨cleared, clears, kept, length⟩ := @seqClear_spec _ null _ _ (o.len + 1) (o.alloc * 2)
        contents (by omega) (by omega) (by rw [length_resized])
      rw [length_resized] at length
      obtain ⟨next, puts, nextHolds⟩ := @listPut_spec _ wordBits itemSize held (o.alloc * 2) o.len
        cleared arg len (by omega) length block kept
      refine .inr ⟨next, ?_, nextHolds⟩
      simp only [renews, clears, bind_eq_bind, bind_some]
      exact puts
  · rw [listAppend, if_neg full]
    exact .inr (listPut_spec arg len (by omega) holds.sound.block.symm holds.word holds.contents)

theorem listAppend_full (positive : 0 < itemSize) (holds : o.Holds wordBits itemSize held)
    (full : o.len = o.alloc) {arg : α} (fits : AppendFits wordBits itemSize o none) :
    listAppend wordBits itemSize null o arg none = some (.raised .memory, o) := by
  have some_ := holds.sound.some_
  rw [listAppend, if_pos full.ge]
  rcases renewItems_fits positive (by omega : 0 < o.alloc * 2) (fits.resolve_left (by omega))
    o.items with ⟨-, renews⟩ | ⟨moves, fill, answered, -⟩
  · rw [renews]
  · cases answered

theorem listExtendBy_spec {items : List α} {src : ListSource α} (isLen : len = held.length)
    (room : len + (src.items held).length ≤ alloc) (some_ : 1 ≤ alloc)
    (block : items.length = alloc) (word : BlockFits wordBits itemSize alloc)
    (contents : held <+: items) :
    ∃ next, listExtendBy { alloc := alloc, len := len, items := items } src (src.items held).length =
        some (.returned, next) ∧ next.Holds wordBits itemSize (held ++ src.items held) := by
  obtain ⟨after, stored, kept, length⟩ := @storeAt_contents _ items held (src.items held) contents
    (by omega)
  rw [← isLen] at stored
  -- The list itself is in front of the place that it is copied to.
  have copies : copyInto src.inArray (src.items held).length false false items len =
      storeAt items len (src.inArray.items held) := by
    refine copyInto_eq src.taken fun start from_ => ?_
    obtain ⟨rfl, rfl⟩ := src.start_eq from_
    refine ⟨rfl, .inr (.inl ?_), ?_⟩
    · show 0 + held.length ≤ len
      omega
    · rw [loadAt_within contents (by show 0 + held.length ≤ _; omega), drop_zero]
      exact congrArg some (take_length)
  refine ⟨{ alloc := alloc, len := len + (src.items held).length, items := after }, ?_, ?_⟩
  · simp only [listExtendBy, copies, src.items_inArray, stored, map_some]
  · exact .of_block (by rw [length_append, isLen]) room some_ (length.trans block) word kept

theorem listExtend_spec (positive : 0 < itemSize) (holds : o.Holds wordBits itemSize held)
    {src : ListSource α} {answer : BlockAnswer α}
    (fits : ListCall.Fits wordBits itemSize null o (.extend src answer)) :
    (listExtend wordBits itemSize null o src answer = some (.raised .memory, o) ∧ answer = none) ∨
      ∃ next, listExtend wordBits itemSize null o src answer = some (.returned, next) ∧
        next.Holds wordBits itemSize (held ++ src.items held) := by
  have len := holds.len
  have count := holds.source src
  by_cases grows : o.len + src.count o > o.alloc
  · rw [listExtend, if_pos grows]
    rcases renewItems_fits positive (by omega : 0 < o.len + src.count o + 4)
      (fits.resolve_left (by omega)) o.items with ⟨none_, renews⟩ | ⟨moves, fill, -, block, renews⟩
    · exact .inl ⟨by rw [renews], none_⟩
    · have contents := prefix_resized holds.contents
        (by omega : held.length ≤ o.len + src.count o + 4) fill
      obtain ⟨cleared, clears, kept, length⟩ := @seqClear_spec _ null _ _ (o.len + src.count o)
        (o.len + src.count o + 4) contents (by omega) (by omega) (by rw [length_resized])
      rw [length_resized] at length
      obtain ⟨next, extends_, nextHolds⟩ := @listExtendBy_spec _ wordBits itemSize held
        (o.len + src.count o + 4) o.len cleared src len (by omega) (by omega) length block kept
      rw [count] at extends_
      refine .inr ⟨next, ?_, nextHolds⟩
      simp only [renews, clears, bind_eq_bind, bind_some]
      exact extends_
  · rw [listExtend, if_neg grows, ← count]
    exact .inr (listExtendBy_spec len (by omega) holds.sound.some_ holds.sound.block.symm
      holds.word holds.contents)

theorem listExtendFromIter_spec (positive : 0 < itemSize) (holds : o.Holds wordBits itemSize held)
    (items : List (α × BlockAnswer α)) (stops : Bool)
    (fits : ItersFit wordBits itemSize null o items) :
    (∃ next, listExtendFromIter wordBits itemSize null stops o items =
        some (if stops then .returned else .raised .iterable, next) ∧
        next.Holds wordBits itemSize (held ++ items.map Prod.fst)) ∨
      ∃ k item next, items[k]? = some (item, none) ∧
        listExtendFromIter wordBits itemSize null stops o items = some (.raised .memory, next) ∧
        next.Holds wordBits itemSize (held ++ (items.take k).map Prod.fst) := by
  induction items generalizing o held with
  | nil => exact .inl ⟨o, rfl, by rw [map_nil, append_nil]; exact holds⟩
  | cons head items ih =>
    obtain ⟨item, answer⟩ := head
    obtain ⟨here, later⟩ := fits
    rw [listExtendFromIter]
    rcases @listAppend_spec _ wordBits itemSize null o held positive holds item answer here with
      ⟨raises, rfl⟩ | ⟨next, appends, nextHolds⟩
    · refine .inr ⟨0, item, o, rfl, by rw [raises], ?_⟩
      rw [take_zero, map_nil, append_nil]
      exact holds
    · rw [appends]
      rcases ih nextHolds (later next appends) with
        ⟨last, comes, lastHolds⟩ | ⟨k, refused, last, found, comes, lastHolds⟩
      · refine .inl ⟨last, comes, ?_⟩
        rw [append_assoc] at lastHolds
        exact lastHolds
      · refine .inr ⟨k + 1, refused, last, found, comes, ?_⟩
        rw [append_assoc] at lastHolds
        exact lastHolds

/-! ## Insertion -/

theorem insertIndex_eq (len : Nat) (index : Int) :
    insertIndex len index = clampedEnd len 0 (some index) := by
  simp only [insertIndex, clampedEnd]
  split_ifs <;> omega

theorem insertShift_spec (front back spare : List α) (last : α) :
    ∃ hole, insertShift front.length (front.length + back.length)
        (front ++ back ++ last :: spare) = some (front ++ hole :: (back ++ spare)) := by
  induction back using reverseRecOn generalizing last spare with
  | nil =>
    refine ⟨last, ?_⟩
    rw [append_nil, nil_append, length_nil, Nat.add_zero]
    cases front.length with
    | zero => rfl
    | succ i => rw [insertShift, if_neg (by omega)]
  | append_singleton back item ih =>
    obtain ⟨hole, shifts⟩ := ih (item :: spare) item
    have split : front ++ (back ++ [item]) ++ last :: spare =
        front ++ back ++ item :: last :: spare := by
      rw [← append_assoc, append_assoc (front ++ back), singleton_append]
    have found : (front ++ back ++ item :: last :: spare)[front.length + back.length]? =
        some item := by
      rw [← length_append, getElem?_append_right (Nat.le_refl _), Nat.sub_self]
      rfl
    have stored : storeAt (front ++ back ++ item :: last :: spare)
        (front.length + back.length + 1) [item] =
        some (front ++ back ++ item :: item :: spare) := by
      have store := @storeAt_append _ (front ++ back ++ [item]) [last] spare [item] rfl
      simpa [Nat.add_assoc] using store
    refine ⟨hole, ?_⟩
    rw [split, length_append, length_singleton, ← Nat.add_assoc, insertShift,
      if_pos (by omega), found]
    simp only [bind_eq_bind, bind_some, stored]
    rw [shifts, append_assoc back, singleton_append]

theorem insertIdx_append (front back : List α) (item : α) :
    (front ++ back).insertIdx front.length item = front ++ item :: back := by
  induction front with
  | nil => rfl
  | cons head front ih =>
    rw [cons_append, length_cons, insertIdx_succ_cons, ih]
    rfl

theorem listInsert_spec (positive : 0 < itemSize) (holds : o.Holds wordBits itemSize held)
    {idx : IndexObj} (obj : α) {answer : BlockAnswer α}
    (fits : AppendFits wordBits itemSize o answer) :
    (listInsert wordBits itemSize null none_ o idx obj answer = some (.raised .memory, o) ∧
        answer = none) ∨
      ∃ next, listInsert wordBits itemSize null none_ o idx obj answer = some (.returned, next) ∧
        next.Holds wordBits itemSize
          (held.insertIdx (clampedEnd o.len 0 (some idx.smallIntValue)) obj) := by
  have len := holds.len
  rw [← insertIndex_eq, listInsert]
  have inside : insertIndex o.len idx.smallIntValue ≤ o.len := by
    rw [insertIndex_eq]
    simp only [clampedEnd]
    split_ifs <;> omega
  generalize insertIndex o.len idx.smallIntValue = index at inside ⊢
  rcases @listAppend_spec _ wordBits itemSize null o held positive holds none_ answer fits with
    ⟨raises, rfl⟩ | ⟨next, appends, nextHolds⟩
  · exact .inl ⟨by rw [raises], rfl⟩
  · rw [appends]
    obtain ⟨front, back, rfl, frontLength⟩ : ∃ front back, held = front ++ back ∧
        front.length = index :=
      ⟨held.take index, held.drop index, (take_append_drop _ _).symm, by
        rw [length_take]
        omega⟩
    obtain ⟨spare, items⟩ := nextHolds.contents
    rw [append_assoc, singleton_append] at items
    obtain ⟨hole, shifts⟩ := insertShift_spec front back spare none_
    have stored := @storeAt_append _ front [hole] (back ++ spare) [obj] rfl
    rw [append_assoc, append_assoc, singleton_append, singleton_append] at stored
    have nextLen := nextHolds.len
    rw [length_append, length_singleton] at nextLen
    have lastPlace : next.len - 1 = front.length + back.length := by
      rw [nextLen, length_append]
      omega
    rw [← frontLength, insertIdx_append]
    refine .inr ⟨{ next with items := front ++ obj :: (back ++ spare) }, ?_, ?_⟩
    · simp only [lastPlace, ← items, shifts, stored, bind_eq_bind, bind_some]
    · refine .of_block ?_ nextHolds.sound.len nextHolds.sound.some_ ?_ nextHolds.word ?_
      · rw [nextLen]
        simp only [length_append, length_cons]
        omega
      · rw [nextHolds.sound.block, ← items]
        simp only [length_append, length_cons]
        omega
      · rw [← cons_append, ← append_assoc]
        exact prefix_append _ _

/-! ## Indexes -/

theorem MpList.Holds.half (words : 2 ≤ itemSize) (holds : o.Holds wordBits itemSize held) :
    2 * o.len < 2 ^ wordBits := by
  have less : 2 * o.len ≤ itemSize * o.alloc := Nat.mul_le_mul words holds.sound.len
  exact lt_of_le_of_lt less holds.word

/-- `mp_get_index` finds the place of an index, or refuses it. -/
theorem getIndex_spec {len : Nat} (half : 2 * len < 2 ^ wordBits) (index : IndexObj) :
    (∃ error, error ≠ .memory ∧ getIndex wordBits len index = .error error ∧
        listPlace len index = none) ∨
      ∃ i, i < len ∧ getIndex wordBits len index = .ok i ∧ listPlace len index = some i := by
  -- An integer of the machine, with what the function does about it.
  have known : ∀ i : Int,
      (∃ error, error ≠ ListError.memory ∧
        (if (if i < 0 then i + len else i) < 0 ∨ (if i < 0 then i + len else i) ≥ len then
          Except.error ListError.indexError
        else Except.ok (if i < 0 then i + len else i).toNat) = .error error ∧
        listPlace len (.small i) = none) ∨
      ∃ place, place < len ∧
        (if (if i < 0 then i + len else i) < 0 ∨ (if i < 0 then i + len else i) ≥ len then
          Except.error ListError.indexError
        else Except.ok (if i < 0 then i + len else i).toNat) = .ok place ∧
        listPlace len (.small i) = some place := by
    intro i
    simp only [listPlace, IndexObj.value, bind_some]
    by_cases negative : i < 0
    · simp only [if_pos negative, if_neg (by omega : ¬(0 ≤ i ∧ i < (len : Int)))]
      by_cases inside : -(len : Int) ≤ i
      · rw [if_neg (by omega), if_pos ⟨inside, negative⟩, Int.add_comm]
        exact .inr ⟨_, by omega, rfl, rfl⟩
      · rw [if_pos (by omega), if_neg (by omega)]
        exact .inl ⟨_, by decide, rfl, rfl⟩
    · simp only [if_neg negative]
      by_cases inside : i < len
      · rw [if_neg (by omega), if_pos (by omega)]
        exact .inr ⟨_, by omega, rfl, rfl⟩
      · rw [if_pos (by omega), if_neg (by omega), if_neg (by omega)]
        exact .inl ⟨_, by decide, rfl, rfl⟩
  cases index with
  | small i => exact known i
  | object word value =>
    cases value with
    | none => exact .inl ⟨.typeError, by decide, rfl, rfl⟩
    | some i =>
      by_cases machine : IsMachineInt wordBits i
      · have got : objGetInt wordBits i = .ok i := if_pos machine
        simp only [getIndex, got]
        exact known i
      · have got : objGetInt wordBits i = .error .overflow := if_neg machine
        refine .inl ⟨.overflow, by decide, by simp only [getIndex, got]; rfl, ?_⟩
        have power : ((2 : Int) ^ wordBits) = ((2 ^ wordBits : Nat) : Int) := by push_cast; rfl
        rw [IsMachineInt, power] at machine
        simp only [listPlace, IndexObj.value, bind_some]
        rw [if_neg (by omega), if_neg (by omega)]

theorem listStore_spec (words : 2 ≤ itemSize) (holds : o.Holds wordBits itemSize held)
    (index : IndexObj) (value : α) :
    match listPlace o.len index with
    | none => ∃ error, error ≠ .memory ∧ listStore wordBits o index value = some (.raised error, o)
    | some i => ∃ next, listStore wordBits o index value = some (.returned, next) ∧
        next.Holds wordBits itemSize (held.set i value) := by
  rcases getIndex_spec (holds.half words) index with ⟨error, other, gets, place⟩ | ⟨i, inside, gets, place⟩
  · rw [place]
    exact ⟨error, other, by rw [listStore, gets]⟩
  · rw [place]
    have len := holds.len
    have room := holds.sound.len
    have block := holds.sound.block
    obtain ⟨after, stored, length, contents⟩ := @storeAt_within _ o.items held [value] i
      holds.contents (by omega) (by rw [length_singleton]; omega)
    have replaced : held.set i value = held.take i ++ [value] ++ held.drop (i + 1) := by
      rw [set_eq_take_append_cons_drop, if_pos (by omega), append_assoc,
        singleton_append]
    rw [length_singleton, ← replaced] at contents
    refine ⟨{ o with items := after }, ?_, ?_⟩
    · simp only [listStore, gets, stored, map_some]
    · exact .of_block (by rw [length_set, len]) room holds.sound.some_ (by omega) holds.word
        contents

/-! ## Removal -/

theorem storeAt_nil {items : List α} {position : Nat} (inside : position ≤ items.length) :
    storeAt items position [] = some items := by
  rw [storeAt, length_nil, Nat.add_zero, if_pos inside, append_nil, take_append_drop]

theorem eraseIdx_append (front back : List α) (item : α) :
    (front ++ item :: back).eraseIdx front.length = front ++ back := by
  rw [eraseIdx_append_of_length_le (Nat.le_refl _), Nat.sub_self]
  rfl

/-- The item is removed, also if the block cannot be made smaller then. -/
theorem listPopAt_spec (positive : 0 < itemSize) (holds : o.Holds wordBits itemSize held)
    {index : Nat} (inside : index < o.len) (answer : BlockAnswer α) :
    ∃ ended next, listPopAt wordBits itemSize null o index answer = some (ended, next) ∧
      next.Holds wordBits itemSize (held.eraseIdx index) ∧
      ((∃ item, held[index]? = some item ∧ ended = .gave item) ∨
        (answer = none ∧ ended = .raised .memory)) := by
  have len := holds.len
  have room := holds.sound.len
  have block := holds.sound.block
  obtain ⟨front, item, back, rfl, rfl⟩ : ∃ front item back, held = front ++ item :: back ∧
      front.length = index :=
    ⟨held.take index, held[index], held.drop (index + 1), by simp, by
      rw [length_take]
      omega⟩
  have contents := holds.contents
  have lenIs : o.len - 1 = (front ++ back).length := by
    rw [len]
    simp only [length_append, length_cons]
    omega
  have found : (front ++ item :: back)[front.length]? = some item := by
    rw [getElem?_append_right (Nat.le_refl _), Nat.sub_self]
    rfl
  have ret : o.items[front.length]? = some item := by
    obtain ⟨spare, items⟩ := contents
    rw [← items, getElem?_append_left (by rw [← len]; exact inside)]
    exact found
  obtain ⟨copied, moved, copies, loaded, moves, kept, length⟩ :=
    @storeAt_shrink _ o.items front back [] [item]
      (by rw [append_assoc, singleton_append]; exact contents) (Nat.zero_le _)
  rw [storeAt_nil (by omega)] at copies
  cases copies
  rw [length_singleton] at loaded
  rw [length_nil, Nat.add_zero] at moves
  rw [append_nil] at kept
  obtain ⟨popped, pops⟩ := @storeAt_isSome _ moved [null] (o.len - 1)
    (by rw [length_singleton]; omega)
  have poppedKept := storeAt_behind kept (by omega) pops
  have poppedLength := (length_of_storeAt pops).trans length
  have backLength : o.len - 1 - front.length = back.length := by
    rw [lenIs, length_append, Nat.add_sub_cancel_left]
  rw [eraseIdx_append, listPopAt]
  simp only [ret, backLength, loaded, moves, pops, bind_eq_bind, bind_some]
  by_cases shrinks : o.alloc > 4 ∧ o.alloc > 2 * (o.len - 1)
  · have less : BlockFits wordBits itemSize (o.alloc / 2) := holds.word.mono (by omega)
    rw [if_pos shrinks, renewItems_spec positive (by omega : 0 < o.alloc / 2) less]
    cases answer with
    | none =>
      exact ⟨_, _, rfl, .of_block lenIs (by omega) holds.sound.some_ (by omega) holds.word
        poppedKept, .inr ⟨rfl, rfl⟩⟩
    | some answered =>
      obtain ⟨moves, fill⟩ := answered
      exact ⟨_, _, rfl, .of_block lenIs (by omega) (by omega) (length_resized _ _ _) less
        (prefix_resized poppedKept (by omega) fill), .inl ⟨item, found, rfl⟩⟩
  · rw [if_neg shrinks]
    exact ⟨_, _, rfl, .of_block lenIs (by omega) holds.sound.some_ (by omega) holds.word poppedKept,
      .inl ⟨item, found, rfl⟩⟩

/-- How the removal of an item ends, if there is one at the place. -/
def RemovalEnds (wordBits itemSize : Nat) (o : MpList α) (held : List α) (place : Option Nat)
    (answer : BlockAnswer α) (result : α → ListEnd α) (done : Option (ListEnd α × MpList α)) : Prop :=
  match place with
  | none => ∃ error, error ≠ .memory ∧ done = some (.raised error, o)
  | some i => ∃ ended next, done = some (ended, next) ∧
      next.Holds wordBits itemSize (held.eraseIdx i) ∧
      ((∃ item, held[i]? = some item ∧ ended = result item) ∨
        (answer = none ∧ ended = .raised .memory))

section

variable (positive : 0 < itemSize) (words : 2 ≤ itemSize) (holds : o.Holds wordBits itemSize held)

include positive words holds

theorem listPop_spec (index : IndexObj) (answer : BlockAnswer α) :
    RemovalEnds wordBits itemSize o held (listPlace o.len index) answer .gave
      (listPop wordBits itemSize null o index answer) := by
  rcases getIndex_spec (holds.half words) index with
    ⟨error, other, gets, place⟩ | ⟨i, inside, gets, place⟩
  · rw [place]
    by_cases empty : o.len = 0
    · exact ⟨.indexError, by decide, if_pos empty⟩
    · exact ⟨error, other, by rw [listPop, if_neg empty, gets]⟩
  · rw [place]
    obtain ⟨ended, next, pops, rest⟩ :=
      @listPopAt_spec _ wordBits itemSize null o held positive holds i inside answer
    exact ⟨ended, next, by rw [listPop, if_neg (by omega), gets]; exact pops, rest⟩

theorem listDelete_spec (index : IndexObj) (answer : BlockAnswer α) :
    RemovalEnds wordBits itemSize o held (listPlace o.len index) answer (fun _ => .returned)
      (listDelete wordBits itemSize null o index answer) := by
  have pop := @listPop_spec _ wordBits itemSize null o held positive words holds index answer
  cases place : listPlace o.len index with
  | none =>
    rw [place] at pop
    obtain ⟨error, other, raises⟩ := pop
    exact ⟨error, other, by rw [listDelete, raises]; rfl⟩
  | some i =>
    rw [place] at pop
    obtain ⟨ended, next, pops, nextHolds, how⟩ := pop
    refine ⟨ended.dropItem, next, by rw [listDelete, pops]; rfl, nextHolds, ?_⟩
    rcases how with ⟨item, found, rfl⟩ | ⟨none_, rfl⟩
    · exact .inl ⟨item, found, rfl⟩
    · exact .inr ⟨none_, rfl⟩

theorem listRemove_spec (equal : α → Bool) (answer : BlockAnswer α) :
    RemovalEnds wordBits itemSize o held (held.findIdx? equal) answer (fun _ => .returned)
      (listRemove wordBits itemSize null o equal answer) := by
  have same : o.items.take o.len = held := holds.held_eq
  cases found : held.findIdx? equal with
  | none => exact ⟨.valueError, by decide, by simp only [listRemove, seqIndexObj, same, found]⟩
  | some i =>
    have inside : i < o.len := by
      rw [holds.len]
      exact (findIdx?_eq_some_iff_findIdx_eq.mp found).1
    have place : listPlace o.len (.small i) = some i := by
      simp only [listPlace, IndexObj.value, bind_some]
      rw [if_pos (by omega), Int.toNat_natCast]
    have delete := @listDelete_spec _ wordBits itemSize null o held positive words holds (.small i)
      answer
    rw [place] at delete
    simp only [listRemove, seqIndexObj, same, found]
    exact delete

end

/-! ## Slices -/

theorem sliceStep_spec (step : Option Int) :
    sliceStep wordBits step = .ok (step.getD 1) ∨
      (step.getD 1 ≠ 1 ∧ ∃ error, error ≠ .memory ∧ sliceStep wordBits step = .error error) := by
  cases step with
  | none => exact .inl rfl
  | some step =>
    by_cases one : step = 1
    · subst one
      exact .inl rfl
    · simp only [sliceStep, if_neg one, getD_some]
      by_cases machine : IsMachineInt wordBits step
      · have got : objGetInt wordBits step = .ok step := if_pos machine
        rw [got]
        by_cases zero : step = 0
        · exact .inr ⟨one, .valueError, by decide, if_pos zero⟩
        · exact .inl (if_neg zero)
      · have got : objGetInt wordBits step = .error .overflow := if_neg machine
        exact .inr ⟨one, .overflow, by decide, by rw [got]; rfl⟩

theorem sliceBound_spec (bound : Option Int) :
    ((∀ i ∈ bound, IsMachineInt wordBits i) ∧ sliceBound wordBits bound = .ok bound) ∨
      ((¬∀ i ∈ bound, IsMachineInt wordBits i) ∧ sliceBound wordBits bound = .error .overflow) := by
  cases bound with
  | none => exact .inl ⟨nofun, rfl⟩
  | some i =>
    by_cases machine : IsMachineInt wordBits i
    · have got : objGetInt wordBits i = .ok i := if_pos machine
      exact .inl ⟨fun j same => some.inj same ▸ machine, by rw [sliceBound, got]; rfl⟩
    · have got : objGetInt wordBits i = .error .overflow := if_neg machine
      exact .inr ⟨fun all => machine (all i rfl), by rw [sliceBound, got]; rfl⟩

theorem fastSliceOf_spec (len : Nat) (slice : SliceObj) :
    (∃ error, error ≠ .memory ∧ fastSliceOf wordBits len slice = .error error ∧
        listSliceBounds wordBits len slice = none) ∨
      ∃ first last, fastSliceOf wordBits len slice = .ok (first, last) ∧
        listSliceBounds wordBits len slice = some (first, last) ∧ first ≤ last ∧ last ≤ len := by
  rw [fastSliceOf, listSliceBounds]
  rcases @sliceStep_spec wordBits slice.step with step | ⟨one, error, other, step⟩
  · rcases @sliceBound_spec wordBits slice.start with ⟨startFits, start⟩ | ⟨unfit, start⟩
    · rcases @sliceBound_spec wordBits slice.stop with ⟨stopFits, stop⟩ | ⟨unfit, stop⟩
      · simp only [step, start, stop, Bind.bind, Except.bind]
        by_cases one : slice.step.getD 1 = 1
        · obtain ⟨same, ordered, inside⟩ := fastSliceIndexes_eq len slice.start slice.stop
          rw [if_pos one, if_pos ⟨one, startFits, stopFits⟩, same]
          exact .inr ⟨_, _, rfl, rfl, ordered, inside⟩
        · rw [if_neg one, if_neg (fun all => one all.1)]
          exact .inl ⟨_, by decide, rfl, rfl⟩
      · rw [step, start, stop, if_neg (fun all => unfit all.2.2)]
        exact .inl ⟨.overflow, by decide, rfl, rfl⟩
    · rw [step, start, if_neg (fun all => unfit all.2.1)]
      exact .inl ⟨.overflow, by decide, rfl, rfl⟩
  · rw [step, if_neg (fun all => one all.1)]
    exact .inl ⟨error, other, rfl, rfl⟩

section

variable (holds : o.Holds wordBits itemSize held) (src : ListSource α) {first last : Nat}
  (ordered : first ≤ last) (bound : last ≤ o.len) (shorter : src.count o ≤ last - first)

include holds src first last ordered bound shorter

theorem listReplaceNoGrow_spec :
    ∃ after, listReplaceNoGrow o first last src (src.count o) = some after ∧
      held.take first ++ src.items held ++ held.drop last <+: after ∧
      after.length = o.items.length := by
  have len := holds.len
  by_cases itself : src.inArray.start = some first
  · -- Only all of the items can be replaced by all of them.
    obtain ⟨rfl, rfl⟩ := src.start_eq itself
    have count : o.len ≤ last - 0 := shorter
    have room := holds.sound.len
    have block := holds.sound.block
    have all : last = o.len := by omega
    have loaded : loadAt o.items last (o.len - last) = some [] := by
      rw [all, Nat.sub_self, loadAt, if_pos (by omega), take_zero]
    have contents : held.take 0 ++ ListSource.self.items held ++ held.drop last = held := by
      rw [take_zero, nil_append, drop_of_length_le (by omega), append_nil]
      rfl
    refine ⟨o.items, ?_, by rw [contents]; exact holds.contents, rfl⟩
    rw [listReplaceNoGrow, if_pos itself]
    simp only [loaded, bind_eq_bind, bind_some]
    exact storeAt_nil (by show 0 + o.len ≤ _; omega)
  · rw [listReplaceNoGrow, if_neg itself, ← src.items_inArray]
    refine replaceSliceNoGrow_spec holds.inArray src.taken src.inside ordered bound shorter ?_
    intro start from_
    obtain ⟨rfl, rfl⟩ := src.start_eq from_
    have count : o.len ≤ last - first := shorter
    have zero : first = 0 := by omega
    exact absurd (by rw [from_, zero]) itself

theorem listShrinkSlice_spec :
    ∃ next, listShrinkSlice null o first last src (src.count o) = some (.returned, next) ∧
      next.Holds wordBits itemSize (held.take first ++ src.items held ++ held.drop last) := by
  have len := holds.len
  have room := holds.sound.len
  have block := holds.sound.block
  have count := holds.source src
  obtain ⟨replaced, replaces, contents, length⟩ :=
    listReplaceNoGrow_spec holds src ordered bound shorter
  have newLen : o.len - (last - first - src.count o) =
      (held.take first ++ src.items held ++ held.drop last).length := by
    simp only [length_append, length_take, length_drop]
    omega
  obtain ⟨cleared, clears, kept, clearedLength⟩ := @seqClear_spec _ null _ _
    (o.len - (last - first - src.count o)) o.len contents newLen.ge (by omega) (by omega)
  refine ⟨{ o with len := o.len - (last - first - src.count o), items := cleared }, ?_, ?_⟩
  · simp only [listShrinkSlice, replaces, clears, bind_eq_bind, bind_some]
  · exact .of_block newLen (by omega) holds.sound.some_ (by omega) holds.word kept

end

theorem listDeleteSlice_spec (holds : o.Holds wordBits itemSize held) (slice : SliceObj) :
    match listSliceBounds wordBits o.len slice with
    | none => ∃ error, error ≠ .memory ∧
        listDeleteSlice wordBits null o slice = some (.raised error, o)
    | some (first, last) => ∃ next,
        listDeleteSlice wordBits null o slice = some (.returned, next) ∧
        next.Holds wordBits itemSize (held.take first ++ held.drop last) := by
  rcases @fastSliceOf_spec wordBits o.len slice with
    ⟨error, other, fast, bounds⟩ | ⟨first, last, fast, bounds, ordered, inside⟩
  · rw [bounds]
    exact ⟨error, other, by rw [listDeleteSlice, fast]⟩
  · rw [bounds]
    obtain ⟨next, shrinks, nextHolds⟩ := @listShrinkSlice_spec _ wordBits itemSize null o held holds
      (.other []) first last ordered inside (Nat.zero_le _)
    refine ⟨next, by rw [listDeleteSlice, fast]; exact shrinks, ?_⟩
    have nothing : held.take first ++ (ListSource.other []).items held = held.take first :=
      append_nil _
    rw [nothing] at nextHolds
    exact nextHolds

theorem listAssign_spec (positive : 0 < itemSize) (holds : o.Holds wordBits itemSize held)
    {slice : SliceObj} {src : ListSource α} {answer : BlockAnswer α}
    (fits : ListCall.Fits wordBits itemSize null o (.assign slice (some src) answer)) :
    match listSliceBounds wordBits o.len slice with
    | none => ∃ error, error ≠ .memory ∧
        listAssign wordBits itemSize null o slice (some src) answer = some (.raised error, o)
    | some (first, last) =>
      (listAssign wordBits itemSize null o slice (some src) answer = some (.raised .memory, o) ∧
          answer = none) ∨
        ∃ next, listAssign wordBits itemSize null o slice (some src) answer =
            some (.returned, next) ∧
          next.Holds wordBits itemSize (held.take first ++ src.items held ++ held.drop last) := by
  rcases @fastSliceOf_spec wordBits o.len slice with
    ⟨error, other, fast, bounds⟩ | ⟨first, last, fast, bounds, ordered, inside⟩
  · rw [bounds]
    exact ⟨error, other, by rw [listAssign, fast]⟩
  have assigns : listAssign wordBits itemSize null o slice (some src) answer =
      listAssignAt wordBits itemSize null o first last src answer := by
    rw [listAssign, fast]
  have fits := fits (first, last) bounds
  rw [bounds, assigns, listAssignAt]
  dsimp only at fits ⊢
  have len := holds.len
  have room := holds.sound.len
  have block := holds.sound.block
  have count := holds.source src
  by_cases longer : src.count o > last - first
  · rw [if_pos longer]
    have newLen : o.len + (src.count o - (last - first)) =
        (held.take first ++ src.items held ++ held.drop last).length := by
      simp only [length_append, length_take, length_drop]
      omega
    have early : ∀ from_ ∈ src.inArray.start, from_ ≤ first := fun from_ here => by
      rw [(src.start_eq here).2]
      exact Nat.zero_le _
    by_cases grows : o.len + (src.count o - (last - first)) > o.alloc
    · rw [if_pos grows]
      obtain ⟨renews, stays⟩ := (fits.resolve_left (by omega)).resolve_left (by omega)
      rcases renewItems_fits positive (by omega) renews o.items with
        ⟨none_, renewed⟩ | ⟨moves, fill, answered, block, renewed⟩
      · exact .inl ⟨by rw [renewed], none_⟩
      · have contents := prefix_resized holds.contents
          (by omega : held.length ≤ o.len + (src.count o - (last - first))) fill
        obtain ⟨replaced, replaces, kept, length⟩ := replaceSliceGrow_spec holds.inArray src.taken
          src.inside ordered inside longer contents (by rw [length_resized]; rfl)
          (stays _ answered) early
        rw [length_resized] at length
        rw [src.items_inArray] at kept
        refine .inr ⟨_, ?_, .of_block newLen (Nat.le_refl _) (by omega) length block kept⟩
        rw [renewed]
        exact congrArg (Option.map _) replaces
    · rw [if_neg grows]
      obtain ⟨replaced, replaces, kept, length⟩ := replaceSliceGrow_spec holds.inArray src.taken
        src.inside ordered inside longer holds.contents
        (by show o.len + (src.count o - (last - first)) ≤ _; omega) (.inr rfl) early
      rw [src.items_inArray] at kept
      exact .inr ⟨_, congrArg (Option.map _) replaces,
        .of_block newLen (by omega) holds.sound.some_ (by omega) holds.word kept⟩
  · rw [if_neg longer]
    exact .inr (listShrinkSlice_spec holds src ordered inside (by omega))

/-! ## New blocks -/

theorem listClear_spec (positive : 0 < itemSize) (four : BlockFits wordBits itemSize 4)
    (holds : o.Holds wordBits itemSize held) (answer : BlockAnswer α) :
    ∃ ended next, listClear wordBits itemSize null o answer = some (ended, next) ∧
      next.Holds wordBits itemSize [] ∧
      (ended = .returned ∨ (answer = none ∧ ended = .raised .memory)) := by
  rw [listClear, renewItems_spec positive (by decide) four]
  cases answer with
  | none =>
    exact ⟨_, _, rfl, .of_block rfl (Nat.zero_le _) holds.sound.some_ holds.sound.block.symm
      holds.word nil_prefix, .inr ⟨rfl, rfl⟩⟩
  | some answered =>
    obtain ⟨moves, fill⟩ := answered
    obtain ⟨cleared, clears, kept, length⟩ := @seqClear_spec _ null [] (resized fill 4 o.items) 0 4
      nil_prefix (Nat.le_refl _) (by decide) (by rw [length_resized])
    rw [length_resized] at length
    refine ⟨.returned, { alloc := 4, len := 0, items := cleared }, ?_,
      .of_block rfl (Nat.zero_le _) (by decide) length four kept, .inl rfl⟩
    simp only [map_some, clears]

theorem objNewList_spec (positive : 0 < itemSize) {items : List α} {answer : BlockAnswer α}
    (block : BlockFits wordBits itemSize (max 4 items.length)) :
    (objNewList wordBits itemSize null items answer = some none ∧ answer = none) ∨
      ∃ made, objNewList wordBits itemSize null items answer = some (some made) ∧
        made.Holds wordBits itemSize items := by
  have size : (if items.length < 4 then 4 else items.length) = max 4 items.length := by
    split_ifs <;> omega
  rw [objNewList, listNew]
  simp only [size, renewItems_spec positive (by omega : 0 < max 4 items.length) block]
  cases answer with
  | none => exact .inl ⟨rfl, rfl⟩
  | some answered =>
    obtain ⟨moves, fill⟩ := answered
    obtain ⟨cleared, clears, -, length⟩ := @seqClear_spec _ null []
      (resized fill (max 4 items.length) []) items.length (max 4 items.length) nil_prefix
      (Nat.zero_le _) (Nat.le_max_right _ _) (by rw [length_resized])
    rw [length_resized] at length
    obtain ⟨filled, fills, kept, filledLength⟩ := @storeAt_contents _ cleared [] items
      nil_prefix (by rw [length_nil]; omega)
    refine .inr ⟨{ alloc := max 4 items.length, len := items.length, items := filled }, ?_,
      .of_block rfl (Nat.le_max_right _ _) (by omega) (by omega) block kept⟩
    rw [length_nil] at fills
    simp only [map_some, clears, bind_eq_bind, bind_some, fills]

theorem listCopy_spec (positive : 0 < itemSize) (four : BlockFits wordBits itemSize 4)
    (holds : o.Holds wordBits itemSize held) (answer : BlockAnswer α) :
    (listCopy wordBits itemSize null o answer = some (.raised .memory, o) ∧ answer = none) ∨
      ∃ copied, listCopy wordBits itemSize null o answer = some (.made copied, o) ∧
        copied.Holds wordBits itemSize held := by
  have len := holds.len
  have room := holds.sound.len
  have loaded : loadAt o.items 0 o.len = some held := by
    rw [loadAt_within holds.contents (by omega), drop_zero, take_of_length_le (by omega)]
  have block : BlockFits wordBits itemSize (max 4 held.length) := by
    rcases Nat.le_total 4 held.length with many | few
    · rw [Nat.max_eq_right many]
      exact holds.word.mono (by omega)
    · rw [Nat.max_eq_left few]
      exact four
  rcases @objNewList_spec _ wordBits itemSize null positive held answer block with
    ⟨raises, none_⟩ | ⟨copied, makes, copiedHolds⟩
  · refine .inl ⟨?_, none_⟩
    simp only [listCopy, loaded, raises, bind_eq_bind, bind_some]
  · refine .inr ⟨copied, ?_, copiedHolds⟩
    simp only [listCopy, loaded, makes, bind_eq_bind, bind_some]

/-! ## Runs -/

theorem RemovalEnds.does (holds : o.Holds wordBits itemSize o.held) {place : Option Nat}
    {answer : BlockAnswer α} {result : α → ListEnd α} {done : Option (ListEnd α × MpList α)}
    (ends : RemovalEnds wordBits itemSize o o.held place answer result done) :
    ∃ ended next, done = some (ended, next) ∧
      AtPlace place o ended next (fun i => Removes o i answer result ended next) ∧
      next.Holds wordBits itemSize next.held := by
  cases place with
  | none =>
    obtain ⟨error, other, raises⟩ := ends
    exact ⟨_, o, raises, ⟨⟨error, other, rfl⟩, rfl⟩, holds⟩
  | some i =>
    obtain ⟨ended, next, removes, nextHolds, how⟩ := ends
    exact ⟨ended, next, removes, ⟨nextHolds.held_eq, how⟩, nextHolds.held_eq.symm ▸ nextHolds⟩

/-- An operation that fits does what it should, and the list holds its items then. -/
theorem listCall_spec (words : 2 ≤ itemSize) (four : BlockFits wordBits itemSize 4)
    (holds : o.Holds wordBits itemSize o.held) {call : ListCall α}
    (fits : call.Fits wordBits itemSize null o) :
    ∃ ended next, listCall wordBits itemSize null none_ o call = some (ended, next) ∧
      call.Does wordBits o ended next ∧ next.Holds wordBits itemSize next.held := by
  have positive : 0 < itemSize := by omega
  have len := holds.len
  -- An operation that ends in a list of items.
  have holding : ∀ {next : MpList α} {after : List α}, next.Holds wordBits itemSize after →
      next.held = after ∧ next.Holds wordBits itemSize next.held :=
    fun nextHolds => ⟨nextHolds.held_eq, nextHolds.held_eq.symm ▸ nextHolds⟩
  cases call with
  | append arg answer =>
    rcases @listAppend_spec _ wordBits itemSize null o _ positive holds arg answer fits with
      ⟨raises, none_⟩ | ⟨next, appends, nextHolds⟩
    · exact ⟨_, o, raises, .inr ⟨none_, rfl, rfl⟩, holds⟩
    · obtain ⟨same, kept⟩ := holding nextHolds
      exact ⟨_, next, appends, .inl ⟨rfl, same⟩, kept⟩
  | extend src answer =>
    rcases @listExtend_spec _ wordBits itemSize null o _ positive holds src answer fits with
      ⟨raises, none_⟩ | ⟨next, extends_, nextHolds⟩
    · exact ⟨_, o, raises, .inr ⟨none_, rfl, rfl⟩, holds⟩
    · obtain ⟨same, kept⟩ := holding nextHolds
      exact ⟨_, next, extends_, .inl ⟨rfl, same⟩, kept⟩
  | extendFromIter items stops =>
    rcases listExtendFromIter_spec positive holds items stops fits with
      ⟨next, comes, nextHolds⟩ | ⟨k, item, next, found, comes, nextHolds⟩
    · obtain ⟨same, kept⟩ := holding nextHolds
      exact ⟨_, next, comes, .inl ⟨rfl, same⟩, kept⟩
    · obtain ⟨same, kept⟩ := holding nextHolds
      exact ⟨_, next, comes, .inr ⟨k, item, found, rfl, same⟩, kept⟩
  | insert idx obj answer =>
    obtain ⟨appends, ⟨i, value, same⟩ | ⟨full, rfl⟩⟩ := fits
    · rcases @listInsert_spec _ wordBits itemSize null none_ o _ positive holds idx obj answer
        appends with ⟨raises, none_⟩ | ⟨next, inserts, nextHolds⟩
      · exact ⟨_, o, raises, .inr ⟨none_, rfl, rfl⟩, holds⟩
      · rw [same, len] at nextHolds
        obtain ⟨heldIs, kept⟩ := holding nextHolds
        exact ⟨_, next, inserts, .inl ⟨i, value, rfl, heldIs⟩, kept⟩
    · -- A full list is not inserted into without memory, wherever that would be.
      refine ⟨.raised .memory, o, ?_, .inr ⟨rfl, rfl, rfl⟩, holds⟩
      rw [listCall, listInsert, listAppend_full positive holds full appends]
  | pop index answer =>
    have ends := @listPop_spec _ wordBits itemSize null o _ positive words holds index answer
    rw [len] at ends
    exact ends.does holds
  | remove equal answer =>
    exact (listRemove_spec positive words holds equal answer).does holds
  | store index value =>
    have store := listStore_spec words holds index value
    rw [len] at store
    simp only [ListCall.Does]
    cases place : listPlace o.held.length index with
    | none =>
      rw [place] at store
      obtain ⟨error, other, raises⟩ := store
      exact ⟨_, o, raises, ⟨⟨error, other, rfl⟩, rfl⟩, holds⟩
    | some i =>
      rw [place] at store
      obtain ⟨next, stores, nextHolds⟩ := store
      exact ⟨_, next, stores, ⟨rfl, (holding nextHolds).1⟩, (holding nextHolds).2⟩
  | assign slice value answer =>
    cases value with
    | none => exact ⟨_, o, rfl, ⟨⟨.typeError, by decide, rfl⟩, rfl⟩, holds⟩
    | some src =>
      have assign := listAssign_spec positive holds fits
      rw [len] at assign
      simp only [ListCall.Does]
      cases bounds : listSliceBounds wordBits o.held.length slice with
      | none =>
        rw [bounds] at assign
        obtain ⟨error, other, raises⟩ := assign
        exact ⟨_, o, raises, ⟨⟨error, other, rfl⟩, rfl⟩, holds⟩
      | some ends =>
        rw [bounds] at assign
        rcases assign with ⟨raises, none_⟩ | ⟨next, assigns, nextHolds⟩
        · exact ⟨_, o, raises, .inr ⟨none_, rfl, rfl⟩, holds⟩
        · exact ⟨_, next, assigns, .inl ⟨rfl, (holding nextHolds).1⟩, (holding nextHolds).2⟩
  | delete index answer =>
    have ends := @listDelete_spec _ wordBits itemSize null o _ positive words holds index answer
    rw [len] at ends
    exact ends.does holds
  | deleteSlice slice =>
    have delete := @listDeleteSlice_spec _ wordBits itemSize null o _ holds slice
    rw [len] at delete
    simp only [ListCall.Does]
    cases bounds : listSliceBounds wordBits o.held.length slice with
    | none =>
      rw [bounds] at delete
      obtain ⟨error, other, raises⟩ := delete
      exact ⟨_, o, raises, ⟨⟨error, other, rfl⟩, rfl⟩, holds⟩
    | some ends =>
      rw [bounds] at delete
      obtain ⟨next, deletes, nextHolds⟩ := delete
      exact ⟨_, next, deletes, ⟨rfl, (holding nextHolds).1⟩, (holding nextHolds).2⟩
  | clear answer =>
    obtain ⟨ended, next, clears, nextHolds, how⟩ :=
      @listClear_spec _ wordBits itemSize null o _ positive four holds answer
    obtain ⟨same, kept⟩ := holding nextHolds
    exact ⟨ended, next, clears, ⟨same, how⟩, kept⟩
  | copy answer =>
    rcases @listCopy_spec _ wordBits itemSize null o _ positive four holds answer with
      ⟨raises, none_⟩ | ⟨copied, copies, copiedHolds⟩
    · exact ⟨_, o, raises, .inr ⟨none_, rfl, rfl⟩, holds⟩
    · exact ⟨_, o, copies,
        .inl ⟨copied, rfl, copiedHolds.sound, copiedHolds.held_eq, rfl⟩, holds⟩

end Calls

end MultiPython.Obj
