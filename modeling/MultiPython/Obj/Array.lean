import MultiPython.Logic.Buffer
import MultiPython.Logic.Calls
import MultiPython.Str.Unicode

/-!
# Arrays

`py/objarray.c` for `bytearray` and `array`. The items buffer is the list of its cells; the sizes of
blocks are computed in bytes, in words. A copy that leaves the buffer, overlaps where it may not or
reads a block that has been freed has no result.
-/

namespace MultiPython.Obj

open Logic Str List Option

/-- `mp_obj_array_t`. -/
structure MpArray (α : Type) where
  len : Nat
  free : Nat
  items : List α
deriving DecidableEq, Repr

/-- How an operation ends; a slice gives the items of a new array. -/
inductive ArrayEnd (α : Type) where
  | raised
  | returned
  | sliced (items : List α)
deriving DecidableEq, Repr

/-- What the allocator answers: nothing, or whether the block moves and what is in its new part. -/
abbrev BlockAnswer (α : Type) := Option (Bool × (Nat → α))

/-- What an operation takes its items from: the array itself, a memoryview of it, another buffer, or
an object that it refuses. -/
inductive ArraySource (α : Type) where
  | self
  | view (offset count : Nat)
  | other (items : List α)
  | refused

variable {α : Type} (wordBits itemSize : Nat)

/-- The cells in a block for some items, whose size in bytes is a word. -/
def cells (n : Nat) : Nat := itemSize * n % 2 ^ wordBits / itemSize

/-- `m_renew` for some items; nothing if it raises. -/
def renewItems (items : List α) (n : Nat) (answer : BlockAnswer α) : Option (Bool × List α) :=
  if cells wordBits itemSize n = 0 then some (true, [])
  else answer.map fun (moves, fill) => (moves, resized fill (cells wordBits itemSize n) items)

/-- The number of items of a source. -/
def ArraySource.count (self : MpArray α) : ArraySource α → Nat
  | .self => self.len
  | .view _ count => count
  | .other items => items.length
  | .refused => 0

/-- Where a source is in the buffer of the array. -/
def ArraySource.start : ArraySource α → Option Nat
  | .self => some 0
  | .view offset _ => some offset
  | .other _ => none
  | .refused => none

/-- Copy a source into the buffer: it may not be in a block that has been freed. Only `memmove` may
overlap. -/
def copyInto (src : ArraySource α) (count : Nat) (moved mayOverlap : Bool) (buf : List α)
    (position : Nat) : Option (List α) :=
  match src with
  | .other items => storeAt buf position items
  | .refused => none
  | src =>
    let start := src.start.getD 0
    if moved then none
    else if mayOverlap ∨ start + count ≤ position ∨ position + count ≤ start then do
      let items ← loadAt buf start count
      storeAt buf position items
    else none

/-- `mp_binary_set_val_array` at the end of `array_append`; a value that cannot be converted is
nothing. -/
def arraySet (self : MpArray α) (value : Option α) : Option (ArrayEnd α × MpArray α) :=
  match value with
  | none => some (.raised, self)
  | some value => (storeAt self.items self.len [value]).map fun items =>
    (.returned, { self with items := items, len := self.len + 1, free := self.free - 1 })

def arrayAppend (zero : α) (self : MpArray α) (value : Option α) (answer : BlockAnswer α) :
    Option (ArrayEnd α × MpArray α) :=
  if self.free = 0 then
    let self := { self with free := 8 }
    match renewItems wordBits itemSize self.items (self.len + self.free) answer with
    | none => some (.raised, self)
    | some (_, items) => do
        let cleared ← storeAt items (self.len + 1) (List.replicate (self.free - 1) zero)
        arraySet { self with items := cleared } value
  else arraySet self value

/-- `array_extend` by a source that has a buffer. -/
def arrayExtendBy (self : MpArray α) (src : ArraySource α) (answer : BlockAnswer α) :
    Option (ArrayEnd α × MpArray α) :=
  let len := src.count self
  if self.free < len then
    match renewItems wordBits itemSize self.items (self.len + len) answer with
    | none => some (.raised, self)
    | some (moved, items) => (copyInto src len moved false items self.len).map fun items =>
      (.returned, { len := self.len + len, free := 0, items := items })
  else
    (copyInto src len false false self.items self.len).map fun items =>
      (.returned, { len := self.len + len, free := self.free - len, items := items })

def arrayExtend (self : MpArray α) (src : ArraySource α) (answer : BlockAnswer α) :
    Option (ArrayEnd α × MpArray α) :=
  match src with
  | .refused => some (.raised, self)
  | src => arrayExtendBy wordBits itemSize self src answer

/-- `mp_seq_get_fast_slice_indexes` for one end of a slice with step 1. -/
def sliceIndex (len otherwise : Nat) : Option Int → Int
  | none => otherwise
  | some i => if i < 0 then max (len + i) (-1) else min i len

/-- `mp_seq_get_fast_slice_indexes` for step 1. -/
def fastSliceIndexes (len : Nat) (ostart ostop : Option Int) : Nat × Nat :=
  let start := max (sliceIndex len 0 ostart) 0
  let stop := sliceIndex len len ostop
  (start.toNat, (if start > stop then start else stop).toNat)

/-- `mp_seq_replace_slice_grow_inplace`, in a buffer that may have moved. -/
def replaceSliceGrow (items : List α) (destLen start stop : Nat) (src : ArraySource α)
    (srcLen : Nat) (moved : Bool) : Option (List α) := do
  let tail ← loadAt items stop (destLen - stop)
  let shifted ← storeAt items (start + srcLen) tail
  copyInto src srcLen moved true shifted start

/-- `mp_seq_replace_slice_no_grow`. -/
def replaceSliceNoGrow (items : List α) (destLen start stop : Nat) (src : ArraySource α)
    (srcLen : Nat) : Option (List α) := do
  let copied ← copyInto src srcLen false false items start
  let tail ← loadAt copied stop (destLen - stop)
  storeAt copied (start + srcLen) tail

/-- `array_subscr` that assigns a source that it takes. -/
def arrayAssignAt (zero : α) (o : MpArray α) (start stop : Nat) (src : ArraySource α)
    (answer : BlockAnswer α) : Option (ArrayEnd α × MpArray α) :=
  let srcLen := src.count o
  if srcLen > stop - start then
    let lenAdj := srcLen - (stop - start)
    if lenAdj > o.free then
      match renewItems wordBits itemSize o.items (o.len + lenAdj) answer with
      | none => some (.raised, o)
      | some (moved, items) =>
        (replaceSliceGrow items o.len start stop src srcLen moved).map fun items =>
          (.returned, { len := o.len + lenAdj, free := 0, items := items })
    else
      (replaceSliceGrow o.items o.len start stop src srcLen false).map fun items =>
        (.returned, { len := o.len + lenAdj, free := o.free, items := items })
  else do
    let replaced ← replaceSliceNoGrow o.items o.len start stop src srcLen
    let len := o.len - (stop - start - srcLen)
    let items ← storeAt replaced len (List.replicate (o.len - len) zero)
    some (.returned, { len := len, free := o.free, items := items })

/-- `array_subscr` that assigns to a slice. -/
def arrayAssign (zero : α) (o : MpArray α) (ostart ostop : Option Int) (src : ArraySource α)
    (answer : BlockAnswer α) : Option (ArrayEnd α × MpArray α) :=
  match src with
  | .refused => some (.raised, o)
  | src =>
    let (start, stop) := fastSliceIndexes o.len ostart ostop
    arrayAssignAt wordBits itemSize zero o start stop src answer

/-- `array_subscr` that stores an item. -/
def arrayStore (o : MpArray α) (index : Int) (value : Option α) :
    Option (ArrayEnd α × MpArray α) :=
  let i := if index < 0 then index + o.len else index
  if i < 0 ∨ i ≥ o.len then some (.raised, o)
  else
    match value with
    | none => some (.raised, o)
    | some value => (storeAt o.items i.toNat [value]).map fun items =>
      (.returned, { o with items := items })

def arrayNew (n : Nat) (answer : BlockAnswer α) : Option (MpArray α) :=
  (renewItems wordBits itemSize [] n answer).map fun (_, items) =>
    { len := n, free := 0, items := items }

/-- `array_subscr` that loads a slice. -/
def arraySlice (o : MpArray α) (ostart ostop : Option Int) (answer : BlockAnswer α) :
    Option (ArrayEnd α × MpArray α) :=
  let (start, stop) := fastSliceIndexes o.len ostart ostop
  match arrayNew wordBits itemSize (stop - start) answer with
  | none => some (.raised, o)
  | some res => do
      let loaded ← loadAt o.items start (stop - start)
      let items ← storeAt res.items 0 loaded
      some (.sliced (items.take res.len), o)

/-- The loop of `array_construct` for a length that is reported. -/
def constructAt (array : MpArray α) : Nat → List (Option α) → Option (Option (MpArray α))
  | _, [] => some (some array)
  | _, none :: _ => some none
  | i, some value :: values => do
      let items ← storeAt array.items i [value]
      constructAt { array with items := items } (i + 1) values

/-- The loop of `array_construct` for no length, or 0. -/
def constructAppend (zero : α) (array : MpArray α) :
    List (Option α × BlockAnswer α) → Option (Option (MpArray α))
  | [] => some (some array)
  | (value, answer) :: values =>
    match arrayAppend wordBits itemSize zero array value answer with
    | none => none
    | some (.raised, _) => some none
    | some (_, array) => constructAppend zero array values

/-- `array_construct` from an iterable, with the length that it reports, what it gives and what the
allocator answers to each append; nothing inside if it raises. -/
def arrayConstruct (zero : α) (reported : Option Nat) (values : List (Option α × BlockAnswer α))
    (answer : BlockAnswer α) : Option (Option (MpArray α)) :=
  let len := reported.getD 0
  match arrayNew wordBits itemSize len answer with
  | none => some none
  | some array =>
    if len = 0 then constructAppend wordBits itemSize zero array values
    else constructAt array 0 (values.map Prod.fst)

/-- `array_construct` from a buffer. -/
def arrayFromBuffer (items : List α) (answer : BlockAnswer α) : Option (Option (MpArray α)) :=
  match arrayNew wordBits itemSize items.length answer with
  | none => some none
  | some o => (storeAt o.items 0 items).map fun buf => some { o with items := buf }

/-- The operations on an array. -/
inductive ArrayCall (α : Type) where
  | append (value : Option α) (answer : BlockAnswer α)
  | extend (src : ArraySource α) (answer : BlockAnswer α)
  | assign (start stop : Option Int) (src : ArraySource α) (answer : BlockAnswer α)
  | store (index : Int) (value : Option α)
  | slice (start stop : Option Int) (answer : BlockAnswer α)

/-- Perform an operation. -/
def arrayCall (zero : α) (o : MpArray α) : ArrayCall α → Option (ArrayEnd α × MpArray α)
  | .append value answer => arrayAppend wordBits itemSize zero o value answer
  | .extend src answer => arrayExtend wordBits itemSize o src answer
  | .assign start stop src answer => arrayAssign wordBits itemSize zero o start stop src answer
  | .store index value => arrayStore o index value
  | .slice start stop answer => arraySlice wordBits itemSize o start stop answer

/-! ## Lists of items -/

/-- The items of a source, when the array holds some items. -/
def ArraySource.items (held : List α) : ArraySource α → List α
  | .self => held
  | .view offset count => (held.drop offset).take count
  | .other items => items
  | .refused => []

/-- The ends of a slice of a list, in order. -/
def listBounds (count : Nat) (start stop : Option Int) : Nat × Nat :=
  let first := min (clampedEnd count 0 start) count
  (first, max first (clampedEnd count count stop))

/-- What an operation does to a list of items, and the piece that a slice gives. -/
def ArrayCall.onItems (held : List α) : ArrayCall α → List α × Option (List α)
  | .append value _ => (held ++ value.toList, none)
  | .extend src _ => (held ++ src.items held, none)
  | .assign start stop src _ =>
    let (first, last) := listBounds held.length start stop
    (held.take first ++ src.items held ++ held.drop last, none)
  | .store index value =>
    let i := (if index < 0 then index + held.length else index).toNat
    (held.take i ++ value.toList ++ held.drop (i + 1), none)
  | .slice start stop _ =>
    let (first, last) := listBounds held.length start stop
    (held, some ((held.drop first).take (last - first)))

/-- The array holds a list of items, and everything that may be appended without another block is
inside of the buffer. -/
structure MpArray.Holds (o : MpArray α) (held : List α) : Prop where
  len : o.len = held.length
  inside : o.len + o.free ≤ o.items.length
  word : itemSize * o.items.length < 2 ^ wordBits
  contents : held <+: o.items

/-- The size of a block for some items is a word. -/
def BlockFits (n : Nat) : Prop := itemSize * n < 2 ^ wordBits

/-- A source in the array is among its items. -/
def ArraySource.Inside (o : MpArray α) : ArraySource α → Prop
  | .view offset count => offset + count ≤ o.len
  | _ => True

/-- A source is not in the block, or the block does not move. -/
def ArraySource.Stays (src : ArraySource α) (answer : BlockAnswer α) : Prop :=
  ∀ answered ∈ answer, src.start = none ∨ answered.1 = false

/-- The condition under which an operation does what it should. -/
def ArrayCall.Fits (o : MpArray α) : ArrayCall α → Prop
  | .append value answer =>
    o.free ≠ 0 ∨ (answer.isSome ∧ value.isSome ∧ BlockFits wordBits itemSize (o.len + 8))
  | .extend src answer =>
    src.Inside o ∧ (src.count o ≤ o.free ∨
      (BlockFits wordBits itemSize (o.len + src.count o) ∧ src.Stays answer))
  | .assign start stop src answer =>
    let (first, last) := fastSliceIndexes o.len start stop
    let count := src.count o
    src.Inside o ∧
      if count ≤ last - first then
        ∀ from_ ∈ src.start, from_ + count ≤ first ∨ first + count ≤ from_
      else
        (∀ from_ ∈ src.start, from_ ≤ first) ∧
          if count - (last - first) ≤ o.free then
            o.len + (count - (last - first)) + o.free ≤ o.items.length
          else
            BlockFits wordBits itemSize (o.len + (count - (last - first))) ∧ src.Stays answer
  | .store _ _ => True
  | .slice _ _ _ => True

/-- The items of an array. -/
def MpArray.held (o : MpArray α) : List α := o.items.take o.len

/-- The reasons to refuse an operation. -/
def ArrayCall.MayRaise (o : MpArray α) : ArrayCall α → Prop
  | .append value answer => value = none ∨ answer = none
  | .extend src answer => src = .refused ∨ answer = none
  | .assign _ _ src answer => src = .refused ∨ answer = none
  | .store index value => value = none ∨ index < -o.len ∨ o.len ≤ index
  | .slice _ _ answer => answer = none

/-- What an operation should do: one that is refused changes nothing, any other does to the items
what it does to a list. -/
structure ArrayMeets (o : MpArray α) (call : ArrayCall α) (ended : ArrayEnd α) (next : MpArray α) :
    Prop where
  inside : next.len + next.free ≤ next.items.length
  ended : (ended = .raised ∧ next = o ∧ call.MayRaise o) ∨
    (next.held = (call.onItems o.held).1 ∧
      ended = (call.onItems o.held).2.elim .returned .sliced)

section Calls

variable {wordBits itemSize} {o : MpArray α} {held : List α} {zero : α}

theorem MpArray.Holds.held_eq (holds : o.Holds wordBits itemSize held) : o.held = held := by
  rw [MpArray.held, holds.len]
  exact (prefix_iff_eq_take.mp holds.contents).symm

theorem cells_eq (positive : 0 < itemSize) {n : Nat} (fits : BlockFits wordBits itemSize n) :
    cells wordBits itemSize n = n := by
  rw [cells, Nat.mod_eq_of_lt fits, Nat.mul_div_cancel_left _ positive]

theorem renewItems_spec (positive : 0 < itemSize) {n : Nat} (some_ : 0 < n)
    (fits : BlockFits wordBits itemSize n) (items : List α) (answer : BlockAnswer α) :
    renewItems wordBits itemSize items n answer =
      answer.map fun (moves, fill) => (moves, resized fill n items) := by
  rw [renewItems, cells_eq positive fits, if_neg (by omega)]

variable {src : ArraySource α}

theorem MpArray.Holds.source (holds : o.Holds wordBits itemSize held) (inside : src.Inside o) :
    (src.items held).length = src.count o := by
  have len := holds.len
  cases src with
  | self => exact len.symm
  | view offset count =>
    have inside : offset + count ≤ o.len := inside
    simp only [ArraySource.items, ArraySource.count, length_take, length_drop]
    omega
  | other items => rfl
  | refused => rfl

theorem ArraySource.end_le (src : ArraySource α) (inside : src.Inside o) {start : Nat}
    (from_ : src.start = some start) : start + src.count o ≤ o.len := by
  cases src with
  | refused => cases from_
  | other items => cases from_
  | self =>
    cases from_
    simp [ArraySource.count]
  | view offset count =>
    cases from_
    exact inside

theorem MpArray.Holds.load (holds : o.Holds wordBits itemSize held) (inside : src.Inside o)
    {start : Nat} (from_ : src.start = some start) {buf : List α} {k : Nat}
    (kept : held.take k <+: buf) (before : start + src.count o ≤ k) :
    loadAt buf start (src.count o) = some (src.items held) := by
  have len := holds.len
  cases src with
  | other items => cases from_
  | refused => cases from_
  | self =>
    cases from_
    simp only [ArraySource.count] at before ⊢
    rw [take_of_length_le (by omega)] at kept
    rw [loadAt_within kept (by omega), len]
    simp [ArraySource.items]
  | view offset count =>
    cases from_
    have inside : start + count ≤ o.len := inside
    simp only [ArraySource.count] at before ⊢
    rw [loadAt_within kept (by rw [length_take]; omega), drop_take, take_take,
      Nat.min_eq_left (by omega)]
    rfl

theorem copyInto_eq (taken : src ≠ .refused) {count position : Nat} {moved mayOverlap : Bool}
    {buf : List α} (readable : ∀ start, src.start = some start → moved = false ∧
      (mayOverlap = true ∨ start + count ≤ position ∨ position + count ≤ start) ∧
      loadAt buf start count = some (src.items held)) :
    copyInto src count moved mayOverlap buf position =
      storeAt buf position (src.items held) := by
  cases src with
  | other items => rfl
  | refused => exact absurd rfl taken
  | self =>
    obtain ⟨stays, disjoint, loaded⟩ := readable 0 rfl
    simp only [copyInto, ArraySource.start, getD_some, stays, Bool.false_eq_true, if_false,
      if_pos disjoint, loaded, bind_eq_bind, bind_some]
  | view offset count' =>
    obtain ⟨stays, disjoint, loaded⟩ := readable offset rfl
    simp only [copyInto, ArraySource.start, getD_some, stays, Bool.false_eq_true, if_false,
      if_pos disjoint, loaded, bind_eq_bind, bind_some]

/-- How an operation may end: it is refused and leaves the array alone, or does to the items what it
should. -/
def ArrayEnds (wordBits itemSize : Nat) (o : MpArray α) (held : List α) (call : ArrayCall α)
    (done : Option (ArrayEnd α × MpArray α)) : Prop :=
  (done = some (.raised, o) ∧ call.MayRaise o) ∨
    ∃ next, done = some ((call.onItems held).2.elim .returned .sliced, next) ∧
      next.Holds wordBits itemSize (call.onItems held).1

theorem arraySet_spec {len free : Nat} {items : List α} (value : α) (isLen : len = held.length)
    (contents : held <+: items) (inside : len + free ≤ items.length) (some_ : 0 < free)
    (word : itemSize * items.length < 2 ^ wordBits) :
    ∃ next, arraySet { len := len, free := free, items := items } (some value) =
        some (.returned, next) ∧ next.Holds wordBits itemSize (held ++ [value]) := by
  obtain ⟨after, stored, holds, length⟩ := @storeAt_contents _ items held [value] contents
    (by rw [length_singleton]; omega)
  rw [← isLen] at stored
  refine ⟨{ len := len + 1, free := free - 1, items := after }, ?_, ?_, ?_, ?_, holds⟩
  · simp only [arraySet, stored, map_some]
  · show len + 1 = _
    rw [length_append, length_singleton, isLen]
  · show len + 1 + (free - 1) ≤ after.length
    omega
  · rw [length]
    exact word

theorem arrayAppend_spec (positive : 0 < itemSize) (holds : o.Holds wordBits itemSize held)
    {value : Option α} {answer : BlockAnswer α}
    (fits : ArrayCall.Fits wordBits itemSize o (.append value answer)) :
    ArrayEnds wordBits itemSize o held (.append value answer)
      (arrayAppend wordBits itemSize zero o value answer) := by
  have len := holds.len
  by_cases full : o.free = 0
  · obtain ⟨answered, given, block⟩ := fits.resolve_left (not_not.mpr full)
    obtain ⟨⟨moves, fill⟩, rfl⟩ := isSome_iff_exists.mp answered
    obtain ⟨value, rfl⟩ := isSome_iff_exists.mp given
    have contents := prefix_resized holds.contents (by omega : held.length ≤ o.len + 8) fill
    obtain ⟨cleared, clears⟩ := @storeAt_isSome _ (resized fill (o.len + 8) o.items)
      (replicate 7 zero) (o.len + 1) (by rw [length_replicate, length_resized])
    have length := length_of_storeAt clears
    rw [length_resized] at length
    have kept := storeAt_behind contents (by omega) clears
    obtain ⟨next, sets, nextHolds⟩ := @arraySet_spec _ wordBits itemSize held (o.len) 8 cleared value
      len kept (by omega) (by decide) (by rw [length]; exact block)
    refine .inr ⟨next, ?_, nextHolds⟩
    simp only [arrayAppend, if_pos full, renewItems_spec positive (by omega : 0 < o.len + 8) block,
      map_some, clears, bind_eq_bind, bind_some]
    exact sets
  · rw [arrayAppend, if_neg full]
    cases value with
    | none => exact .inl ⟨rfl, .inl rfl⟩
    | some value => exact .inr (arraySet_spec value len holds.contents holds.inside
        (Nat.pos_of_ne_zero full) holds.word)

theorem arrayExtend_spec (positive : 0 < itemSize) (holds : o.Holds wordBits itemSize held)
    {answer : BlockAnswer α} (fits : ArrayCall.Fits wordBits itemSize o (.extend src answer)) :
    ArrayEnds wordBits itemSize o held (.extend src answer)
      (arrayExtend wordBits itemSize o src answer) := by
  have len := holds.len
  obtain ⟨inside, fits⟩ := fits
  by_cases refused : src = .refused
  · subst refused
    exact .inl ⟨rfl, .inl rfl⟩
  have count := holds.source inside
  have taken : arrayExtend wordBits itemSize o src answer =
      arrayExtendBy wordBits itemSize o src answer := by
    cases src with
    | refused => exact absurd rfl refused
    | self => rfl
    | view offset count => rfl
    | other items => rfl
  -- A source in the array ends before the place that it is copied to.
  have sourceEnd : ∀ start, src.start = some start → start + src.count o ≤ o.len :=
    fun start from_ => src.end_le inside from_
  have copies : ∀ (moved : Bool) (buf : List α), held <+: buf →
      (src.start = none ∨ moved = false) →
      copyInto src (src.count o) moved false buf o.len = storeAt buf o.len (src.items held) := by
    intro moved buf kept stays
    refine copyInto_eq refused fun start from_ => ?_
    refine ⟨stays.resolve_left (by rw [from_]; exact some_ne_none _),
      .inr (.inl (sourceEnd start from_)), ?_⟩
    refine holds.load inside from_ (k := o.len) ?_ (sourceEnd start from_)
    rw [take_of_length_le (by omega)]
    exact kept
  rw [taken, arrayExtendBy]
  by_cases grows : o.free < src.count o
  · obtain ⟨block, stays⟩ := fits.resolve_left (by omega)
    rw [if_pos grows, renewItems_spec positive (by omega) block]
    cases answer with
    | none => exact .inl ⟨rfl, .inr rfl⟩
    | some answered =>
      obtain ⟨moves, fill⟩ := answered
      have contents := prefix_resized holds.contents
        (by omega : held.length ≤ o.len + src.count o) fill
      obtain ⟨after, stored, appended, length⟩ := storeAt_contents contents
        (by rw [length_resized]; omega : held.length + (src.items held).length ≤ _)
      rw [← len] at stored
      rw [length_resized] at length
      refine .inr ⟨{ len := o.len + src.count o, free := 0, items := after }, ?_, ?_⟩
      · simp only [map_some, copies moves _ contents (stays _ rfl), stored]
        rfl
      · refine ⟨?_, ?_, by rw [length]; exact block, appended⟩
        · show o.len + src.count o = (held ++ src.items held).length
          rw [length_append]
          omega
        · show o.len + src.count o + 0 ≤ after.length
          omega
  · have bound := holds.inside
    obtain ⟨after, stored, appended, length⟩ := storeAt_contents holds.contents
      (by omega : held.length + (src.items held).length ≤ o.items.length)
    rw [← len] at stored
    rw [if_neg grows]
    refine .inr
      ⟨{ len := o.len + src.count o, free := o.free - src.count o, items := after }, ?_, ?_⟩
    · rw [copies false _ holds.contents (.inr rfl), stored]
      rfl
    · refine ⟨?_, ?_, by rw [length]; exact holds.word, appended⟩
      · show o.len + src.count o = (held ++ src.items held).length
        rw [length_append]
        omega
      · show o.len + src.count o + (o.free - src.count o) ≤ after.length
        omega

theorem fastSliceIndexes_eq (count : Nat) (start stop : Option Int) :
    fastSliceIndexes count start stop = listBounds count start stop ∧
      (listBounds count start stop).1 ≤ (listBounds count start stop).2 ∧
      (listBounds count start stop).2 ≤ count := by
  have first : (max (sliceIndex count 0 start) 0).toNat = min (clampedEnd count 0 start) count := by
    cases start with
    | none => simp [sliceIndex, clampedEnd]
    | some i =>
      simp only [sliceIndex, clampedEnd]
      split_ifs <;> omega
  have last : max (max (sliceIndex count 0 start) 0).toNat (sliceIndex count count stop).toNat =
      max (min (clampedEnd count 0 start) count) (clampedEnd count count stop) := by
    rw [first]
    congr 1
    cases stop with
    | none => simp [sliceIndex, clampedEnd]
    | some i =>
      simp only [sliceIndex, clampedEnd]
      split_ifs <;> omega
  have inside : clampedEnd count count stop ≤ count := by
    cases stop with
    | none => exact Nat.le_refl _
    | some i =>
      simp only [clampedEnd]
      split_ifs <;> omega
  refine ⟨Prod.ext first ?_, Nat.le_max_left _ _, Nat.max_le.mpr ⟨Nat.min_le_right _ _, inside⟩⟩
  rw [listBounds, ← last]
  simp only [fastSliceIndexes]
  split_ifs <;> omega

theorem slice_parts (held : List α) {first last : Nat} (ordered : first ≤ last) :
    held.take first ++ (held.take last).drop first ++ held.drop last = held := by
  have front : held.take first = (held.take last).take first := by
    rw [take_take, Nat.min_eq_left ordered]
  rw [front, take_append_drop, take_append_drop]

section Slices

variable {src : ArraySource α} {first last : Nat}

section

variable (holds : o.Holds wordBits itemSize held) (taken : src ≠ .refused) (inside : src.Inside o)
  (ordered : first ≤ last) (bound : last ≤ o.len)

include holds taken inside ordered bound

/-- A slice that becomes longer, in a buffer that is large enough. -/
theorem replaceSliceGrow_spec (longer : last - first < src.count o) {items : List α}
    (contents : held <+: items) (room : o.len + (src.count o - (last - first)) ≤ items.length)
    {moved : Bool} (stays : src.start = none ∨ moved = false)
    (early : ∀ from_ ∈ src.start, from_ ≤ first) :
    ∃ after, replaceSliceGrow items o.len first last src (src.count o) moved = some after ∧
      held.take first ++ src.items held ++ held.drop last <+: after ∧
      after.length = items.length := by
  have len := holds.len
  have count := holds.source inside
  have frontLength : (held.take first).length = first := by
    rw [length_take]
    omega
  have backLength : (held.drop last).length = o.len - last := by
    rw [length_drop]
    omega
  have loaded : loadAt items last (o.len - last) = some (held.drop last) := by
    rw [loadAt_within contents (by omega), take_of_length_le (by omega)]
  obtain ⟨shifted, filled, moves, fills, replaced, length⟩ :=
    @storeAt_replace _ items (held.take first) (held.drop last) (src.items held)
      ((held.take last).drop first) (by rw [slice_parts held ordered]; exact contents)
      (by omega)
  rw [frontLength, count] at moves
  rw [frontLength] at fills
  -- The source is in front of what has been moved up.
  have kept : held.take (first + src.count o) <+: shifted := by
    have before := take_storeAt moves (Nat.le_refl _)
    have short : (held.take (first + src.count o)) <+: items.take (first + src.count o) :=
      contents.take _
    rw [← before] at short
    exact short.trans ( take_prefix _ _)
  have copies := @copyInto_eq _ held src taken (src.count o) first moved true shifted
    fun start from_ => ⟨stays.resolve_left (by rw [from_]; exact some_ne_none _), .inl rfl,
      holds.load inside from_ kept (by have := early start from_; omega)⟩
  refine ⟨filled, ?_, replaced, length⟩
  simp only [replaceSliceGrow, loaded, moves, copies, fills, bind_eq_bind, bind_some]

/-- A slice that does not become longer. -/
theorem replaceSliceNoGrow_spec (shorter : src.count o ≤ last - first)
    (apart : ∀ from_ ∈ src.start, from_ + src.count o ≤ first ∨ first + src.count o ≤ from_) :
    ∃ after, replaceSliceNoGrow o.items o.len first last src (src.count o) = some after ∧
      held.take first ++ src.items held ++ held.drop last <+: after ∧
      after.length = o.items.length := by
  have len := holds.len
  have count := holds.source inside
  have frontLength : (held.take first).length = first := by
    rw [length_take]
    omega
  have middleLength : ((held.take last).drop first).length = last - first := by
    rw [length_drop, length_take]
    omega
  have backLength : (held.drop last).length = o.len - last := by
    rw [length_drop]
    omega
  obtain ⟨copied, moved, copies, loaded, moves, replaced, length⟩ :=
    @storeAt_shrink _ o.items (held.take first) (held.drop last) (src.items held)
      ((held.take last).drop first)
      (by rw [slice_parts held ordered]; exact holds.contents) (by omega)
  rw [frontLength] at copies
  rw [frontLength, middleLength, backLength, Nat.add_sub_cancel' ordered] at loaded
  rw [frontLength, count] at moves
  have sourceEnd : ∀ start, src.start = some start → start + src.count o ≤ o.len :=
    fun start from_ => src.end_le inside from_
  have copyIs := @copyInto_eq _ held src taken (src.count o) first false false o.items
    fun start from_ => ⟨rfl, .inr (apart start from_),
      holds.load inside from_ (k := o.len)
        (by rw [take_of_length_le (by omega)]; exact holds.contents) (sourceEnd start from_)⟩
  refine ⟨moved, ?_, replaced, length⟩
  simp only [replaceSliceNoGrow, copyIs, copies, loaded, moves, bind_eq_bind,
    bind_some]

end

end Slices

theorem arrayAssign_spec (positive : 0 < itemSize) (holds : o.Holds wordBits itemSize held)
    {start stop : Option Int} {answer : BlockAnswer α}
    (fits : ArrayCall.Fits wordBits itemSize o (.assign start stop src answer)) :
    ArrayEnds wordBits itemSize o held (.assign start stop src answer)
      (arrayAssign wordBits itemSize zero o start stop src answer) := by
  have len := holds.len
  by_cases refused : src = .refused
  · subst refused
    exact .inl ⟨rfl, .inl rfl⟩
  obtain ⟨same, ordered, bound⟩ := fastSliceIndexes_eq o.len start stop
  have taken : arrayAssign wordBits itemSize zero o start stop src answer =
      arrayAssignAt wordBits itemSize zero o (listBounds o.len start stop).1
        (listBounds o.len start stop).2 src answer := by
    rw [← same]
    cases src with
    | refused => exact absurd rfl refused
    | self => rfl
    | view offset count => rfl
    | other items => rfl
  have reference : (ArrayCall.assign start stop src answer).onItems held =
      (held.take (listBounds o.len start stop).1 ++ src.items held ++
        held.drop (listBounds o.len start stop).2, none) := by
    simp only [ArrayCall.onItems, len]
  simp only [ArrayCall.Fits, same] at fits
  rw [ArrayEnds, reference, taken, arrayAssignAt]
  generalize (listBounds o.len start stop).1 = first at fits ordered ⊢
  generalize (listBounds o.len start stop).2 = last at fits ordered bound ⊢
  obtain ⟨inside, fits⟩ := fits
  have count := holds.source inside
  have frontLength : (held.take first).length = first := by
    rw [length_take]
    omega
  have backLength : (held.drop last).length = o.len - last := by
    rw [length_drop]
    omega
  by_cases shorter : src.count o ≤ last - first
  · rw [if_pos shorter] at fits
    rw [if_neg (by omega)]
    obtain ⟨replaced, replaces, contents, length⟩ :=
      replaceSliceNoGrow_spec holds refused inside ordered bound shorter fits
    have newLen : o.len - (last - first - src.count o) =
        (held.take first ++ src.items held ++ held.drop last).length := by
      simp only [length_append]
      omega
    obtain ⟨cleared, clears⟩ := @storeAt_isSome _ replaced
      (replicate (o.len - (o.len - (last - first - src.count o))) zero)
      (o.len - (last - first - src.count o)) (by
        have := holds.inside
        rw [length_replicate]
        omega)
    refine .inr ⟨{ len := o.len - (last - first - src.count o), free := o.free, items := cleared },
      ?_, newLen, ?_, ?_, storeAt_behind contents newLen.ge clears⟩
    · simp only [replaces, clears, bind_eq_bind, bind_some]
      rfl
    · have := holds.inside
      show o.len - _ + o.free ≤ cleared.length
      rw [length_of_storeAt clears]
      omega
    · rw [length_of_storeAt clears, length]
      exact holds.word
  · rw [if_neg shorter] at fits
    obtain ⟨early, fits⟩ := fits
    rw [if_pos (by omega)]
    have newLen : o.len + (src.count o - (last - first)) =
        (held.take first ++ src.items held ++ held.drop last).length := by
      simp only [length_append]
      omega
    by_cases inPlace : src.count o - (last - first) ≤ o.free
    · rw [if_pos inPlace] at fits
      rw [if_neg (by omega)]
      obtain ⟨replaced, replaces, contents, length⟩ := @replaceSliceGrow_spec _ wordBits itemSize o
        held src first last holds refused inside ordered bound (by omega) o.items holds.contents
        (by omega) false (.inr rfl) early
      refine .inr ⟨⟨o.len + (src.count o - (last - first)), o.free, replaced⟩, ?_, newLen, ?_, ?_,
        contents⟩
      · rw [replaces]
        rfl
      · show o.len + _ + o.free ≤ replaced.length
        rw [length]
        exact fits
      · rw [length]
        exact holds.word
    · rw [if_neg inPlace] at fits
      obtain ⟨block, stays⟩ := fits
      rw [if_pos (by omega), renewItems_spec positive (by omega) block]
      cases answer with
      | none => exact .inl ⟨rfl, .inr rfl⟩
      | some answered =>
        obtain ⟨moves, fill⟩ := answered
        have renewed := prefix_resized holds.contents
          (by omega : held.length ≤ o.len + (src.count o - (last - first))) fill
        obtain ⟨replaced, replaces, contents, length⟩ := replaceSliceGrow_spec holds refused
          inside ordered bound (by omega) renewed (by rw [length_resized]) (stays _ rfl) early
        rw [length_resized] at length
        refine .inr ⟨⟨o.len + (src.count o - (last - first)), 0, replaced⟩, ?_, newLen, ?_, ?_,
          contents⟩
        · simp only [map_some, replaces]
          rfl
        · show o.len + _ + 0 ≤ replaced.length
          rw [length]
          exact Nat.le_refl _
        · rw [length]
          exact block

theorem arrayStore_spec (holds : o.Holds wordBits itemSize held) (index : Int) (value : Option α) :
    ArrayEnds wordBits itemSize o held (.store index value) (arrayStore o index value) := by
  have len := holds.len
  have bound := holds.inside
  unfold arrayStore
  dsimp only
  by_cases outside : (if index < 0 then index + o.len else index) < 0 ∨
      (if index < 0 then index + o.len else index) ≥ o.len
  · refine .inl ⟨if_pos outside, .inr ?_⟩
    split_ifs at outside <;> omega
  · rw [if_neg outside]
    cases value with
    | none => exact .inl ⟨rfl, .inl rfl⟩
    | some value =>
      have reference : (ArrayCall.store index (some value)).onItems held =
          (held.take (if index < 0 then index + o.len else index).toNat ++ [value] ++
            held.drop ((if index < 0 then index + o.len else index).toNat + 1), none) := by
        simp only [ArrayCall.onItems, len, toList_some]
      rw [ArrayEnds, reference]
      generalize (if index < 0 then index + o.len else index) = i at outside ⊢
      obtain ⟨after, stored, length, contents⟩ := @storeAt_within _ o.items held [value] i.toNat
        holds.contents (by omega) (by rw [length_singleton]; omega)
      refine .inr ⟨{ o with items := after }, ?_, ?_, ?_, ?_, contents⟩
      · simp only [stored, map_some]
        rfl
      · show o.len = _
        simp only [length_append, length_take, length_drop, length_singleton]
        omega
      · show o.len + o.free ≤ after.length
        omega
      · rw [length]
        exact holds.word

theorem arrayNew_spec (positive : 0 < itemSize) {n : Nat} (fits : BlockFits wordBits itemSize n)
    (answer : BlockAnswer α) :
    (arrayNew wordBits itemSize n answer = none ∧ answer = none) ∨
      ∃ items, arrayNew wordBits itemSize n answer = some { len := n, free := 0, items := items } ∧
        items.length = n := by
  rcases Nat.eq_zero_or_pos n with zero | some_
  · subst zero
    refine .inr ⟨[], ?_, rfl⟩
    simp [arrayNew, renewItems, cells]
  · rw [arrayNew, renewItems_spec positive some_ fits]
    cases answer with
    | none => exact .inl ⟨rfl, rfl⟩
    | some answered => exact .inr ⟨_, rfl, length_resized _ _ _⟩

theorem arraySlice_spec (positive : 0 < itemSize) (holds : o.Holds wordBits itemSize held)
    (start stop : Option Int) (answer : BlockAnswer α) :
    ArrayEnds wordBits itemSize o held (.slice start stop answer)
      (arraySlice wordBits itemSize o start stop answer) := by
  have len := holds.len
  have bound := holds.inside
  obtain ⟨same, ordered, last⟩ := fastSliceIndexes_eq o.len start stop
  have reference : (ArrayCall.slice start stop answer).onItems held =
      (held, some ((held.drop (listBounds o.len start stop).1).take
        ((listBounds o.len start stop).2 - (listBounds o.len start stop).1))) := by
    simp only [ArrayCall.onItems, len]
  rw [ArrayEnds, reference, arraySlice, same]
  generalize (listBounds o.len start stop) = bounds at ordered last ⊢
  obtain ⟨a, b⟩ := bounds
  dsimp only at ordered last ⊢
  have fits : BlockFits wordBits itemSize (b - a) :=
    lt_of_le_of_lt (Nat.mul_le_mul_left itemSize (by omega : b - a ≤ o.items.length)) holds.word
  rcases arrayNew_spec positive fits answer with ⟨raises, none_⟩ | ⟨items, makes, length⟩
  · exact .inl ⟨by rw [raises], none_⟩
  · have pieceLength : ((held.drop a).take (b - a)).length = b - a := by
      rw [length_take, length_drop]
      omega
    have loaded := @loadAt_within _ o.items held a holds.contents (b - a) (by omega)
    have stored := @storeAt_whole _ items ((held.drop a).take (b - a)) (by omega)
    refine .inr ⟨o, ?_, holds⟩
    simp only [makes, loaded, stored, bind_eq_bind, bind_some]
    rw [take_take, Nat.min_self]
    rfl

theorem arrayCall_spec (positive : 0 < itemSize) (holds : o.Holds wordBits itemSize held)
    {call : ArrayCall α} (fits : call.Fits wordBits itemSize o) :
    ArrayEnds wordBits itemSize o held call (arrayCall wordBits itemSize zero o call) := by
  cases call with
  | append value answer => exact arrayAppend_spec positive holds fits
  | extend src answer => exact arrayExtend_spec positive holds fits
  | assign start stop src answer => exact arrayAssign_spec positive holds fits
  | store index value => exact arrayStore_spec holds index value
  | slice start stop answer => exact arraySlice_spec positive holds start stop answer

/-! ## Construction -/

theorem BlockFits.mono {n m : Nat} (fits : BlockFits wordBits itemSize m) (less : n ≤ m) :
    BlockFits wordBits itemSize n :=
  lt_of_le_of_lt (Nat.mul_le_mul_left itemSize less) fits

theorem arrayAppend_raises (positive : 0 < itemSize) {value : Option α} {answer : BlockAnswer α}
    (block : BlockFits wordBits itemSize (o.len + 8))
    (unfit : ¬ArrayCall.Fits wordBits itemSize o (.append value answer)) :
    ∃ next, arrayAppend wordBits itemSize zero o value answer = some (.raised, next) := by
  have full : o.free = 0 := by
    by_contra some_
    exact unfit (.inl some_)
  simp only [arrayAppend, if_pos full, renewItems_spec positive (by omega : 0 < o.len + 8) block]
  cases answer with
  | none => exact ⟨_, rfl⟩
  | some answered =>
    obtain ⟨moves, fill⟩ := answered
    have none_ : value = none := by
      cases value with
      | none => rfl
      | some value => exact absurd (.inr ⟨rfl, rfl, block⟩) unfit
    subst none_
    obtain ⟨cleared, clears⟩ := @storeAt_isSome _ (resized fill (o.len + 8) o.items)
      (replicate 7 zero) (o.len + 1) (by rw [length_replicate, length_resized])
    refine ⟨{ len := o.len, free := 8, items := cleared }, ?_⟩
    simp only [map_some, clears, bind_eq_bind, bind_some]
    rfl

/-- What appending the values of an iterable makes. -/
theorem constructAppend_spec (positive : 0 < itemSize) (holds : o.Holds wordBits itemSize held)
    (values : List (Option α × BlockAnswer α))
    (fits : BlockFits wordBits itemSize (o.len + values.length + 8)) :
    constructAppend wordBits itemSize zero o values = some none ∨
      ∃ array items, constructAppend wordBits itemSize zero o values = some (some array) ∧
        values.map Prod.fst = items.map some ∧
        array.Holds wordBits itemSize (held ++ items) := by
  induction values generalizing o held with
  | nil => exact .inr ⟨o, [], rfl, rfl, by rw [append_nil]; exact holds⟩
  | cons head values ih =>
    obtain ⟨value, answer⟩ := head
    rw [length_cons] at fits
    rw [constructAppend]
    by_cases here : ArrayCall.Fits wordBits itemSize o (.append value answer)
    · rcases @arrayAppend_spec _ wordBits itemSize o held zero positive holds value answer here with
        ⟨raises, -⟩ | ⟨next, appends, nextHolds⟩
      · exact .inl (by rw [raises])
      · have given : ∃ v, value = some v := by
          cases value with
          | some v => exact ⟨v, rfl⟩
          | none =>
            -- Without a value, only a raise is possible.
            have free : o.free ≠ 0 := here.resolve_right (fun all => by simpa using all.2.1)
            rw [arrayAppend, if_neg free] at appends
            cases appends
        obtain ⟨v, rfl⟩ := given
        have nextLen : next.len = o.len + 1 := by
          rw [nextHolds.len, holds.len]
          simp [ArrayCall.onItems]
        rw [appends]
        rcases ih nextHolds (fits.mono (by omega)) with
          raises | ⟨array, items, makes, same, arrayHolds⟩
        · exact .inl raises
        · refine .inr ⟨array, v :: items, makes, by simp [same], ?_⟩
          have contents : held ++ v :: items = held ++ (some v).toList ++ items := by simp
          rw [contents]
          exact arrayHolds
    · obtain ⟨next, raises⟩ := @arrayAppend_raises _ wordBits itemSize o zero positive value answer
        (fits.mono (by omega)) here
      exact .inl (by rw [raises])

/-- What storing the values of an iterable makes that has reported their number. -/
theorem constructAt_spec {items : List α} {len : Nat} (contents : held <+: items)
    (values : List (Option α)) (all : held.length + values.length = len)
    (length : items.length = len) (word : itemSize * len < 2 ^ wordBits) :
    constructAt { len := len, free := 0, items := items } held.length values = some none ∨
      ∃ array added, constructAt { len := len, free := 0, items := items } held.length values =
          some (some array) ∧ values = added.map some ∧
        array.Holds wordBits itemSize (held ++ added) := by
  induction values generalizing held items with
  | nil =>
    rw [length_nil] at all
    refine .inr ⟨_, [], rfl, rfl, ?_⟩
    rw [append_nil]
    exact ⟨all.symm, by show len + 0 ≤ items.length; omega, by rw [length]; exact word, contents⟩
  | cons value values ih =>
    rw [length_cons] at all
    cases value with
    | none => exact .inl rfl
    | some value =>
      obtain ⟨after, stored, kept, same⟩ := @storeAt_contents _ items held [value] contents
        (by rw [length_singleton]; omega)
      have step : constructAt { len := len, free := 0, items := items } held.length
          (some value :: values) =
          constructAt { len := len, free := 0, items := after } (held ++ [value]).length values := by
        simp only [constructAt, stored, bind_eq_bind, bind_some,
          length_append, length_singleton]
      rw [step]
      rcases ih kept (by rw [length_append, length_singleton]; omega)
        (same.trans length) with raises | ⟨array, added, makes, rfl, arrayHolds⟩
      · exact .inl raises
      · refine .inr ⟨array, value :: added, makes, rfl, ?_⟩
        have all : held ++ value :: added = held ++ [value] ++ added := by simp
        rw [all]
        exact arrayHolds

/-- An iterable that reports no length, 0 or the right one makes an array of its values, or the
construction raises. -/
theorem arrayConstruct_spec (positive : 0 < itemSize) {reported : Option Nat}
    {values : List (Option α × BlockAnswer α)} {answer : BlockAnswer α}
    (right : reported.getD 0 = 0 ∨ reported.getD 0 = values.length)
    (block : BlockFits wordBits itemSize (values.length + 8)) :
    arrayConstruct wordBits itemSize zero reported values answer = some none ∨
      ∃ array items, arrayConstruct wordBits itemSize zero reported values answer =
          some (some array) ∧ values.map Prod.fst = items.map some ∧
        array.Holds wordBits itemSize items := by
  rcases arrayNew_spec positive (block.mono (by omega : reported.getD 0 ≤ _)) answer with
    ⟨raises, -⟩ | ⟨items, makes, length⟩
  · exact .inl (by simp only [arrayConstruct, raises])
  · simp only [arrayConstruct, makes]
    by_cases zero_ : reported.getD 0 = 0
    · rw [if_pos zero_]
      have empty : MpArray.Holds wordBits itemSize
          { len := reported.getD 0, free := 0, items := items } [] :=
        ⟨zero_, by show reported.getD 0 + 0 ≤ _; omega, by
          rw [length, zero_, Nat.mul_zero]
          exact Nat.two_pow_pos _, nil_prefix⟩
      exact constructAppend_spec positive empty values (block.mono (by
        show reported.getD 0 + _ + 8 ≤ _
        omega))
    · rw [if_neg zero_]
      have same := right.resolve_left zero_
      exact @constructAt_spec _ wordBits itemSize [] items (reported.getD 0) nil_prefix
        (values.map Prod.fst) (by rw [length_nil, length_map]; omega) length
        (block.mono (by omega))

theorem arrayFromBuffer_spec (positive : 0 < itemSize) {items : List α} {answer : BlockAnswer α}
    (block : BlockFits wordBits itemSize items.length) :
    arrayFromBuffer wordBits itemSize items answer = some none ∨
      ∃ array, arrayFromBuffer wordBits itemSize items answer = some (some array) ∧
        array.Holds wordBits itemSize items := by
  rcases arrayNew_spec positive block answer with ⟨raises, -⟩ | ⟨cells, makes, length⟩
  · exact .inl (by simp only [arrayFromBuffer, raises])
  · refine .inr ⟨{ len := items.length, free := 0, items := items }, ?_, rfl, Nat.le_refl _, block,
      prefix_refl _⟩
    simp only [arrayFromBuffer, makes, storeAt_whole length.symm, map_some]

/-- Every operation of a run is answered as it should be, if each one fits. -/
theorem arrayCalls_spec (positive : 0 < itemSize) (holds : o.Holds wordBits itemSize held)
    (calls : List (ArrayCall α))
    (fit : ∀ made ∈ attempted (arrayCall wordBits itemSize zero) o calls,
      made.2.Fits wordBits itemSize made.1) :
    AllAnswered (arrayCall wordBits itemSize zero) ArrayMeets o calls := by
  refine AllAnswered.of_condition (fun o => o.Holds wordBits itemSize o.held)
    (fun o call => call.Fits wordBits itemSize o) ?_ (holds.held_eq ▸ holds) calls fit
  intro before call beforeHolds fits
  rcases @arrayCall_spec _ wordBits itemSize before before.held zero positive beforeHolds call fits with
    ⟨raises, may⟩ | ⟨next, comes, nextHolds⟩
  · exact ⟨.raised, before, raises, ⟨beforeHolds.inside, .inl ⟨rfl, rfl, may⟩⟩, beforeHolds⟩
  · exact ⟨_, next, comes, ⟨nextHolds.inside, .inr ⟨nextHolds.held_eq, rfl⟩⟩,
      nextHolds.held_eq.symm ▸ nextHolds⟩

end Calls

end MultiPython.Obj
