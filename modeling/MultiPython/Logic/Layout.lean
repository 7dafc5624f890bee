import Mathlib

/-!
# Fields laid out in memory

Fields that follow each other in memory, each at the next address that its alignment allows. The
places of the fields are in order and do not overlap, so that what is stored in them is loaded
again.
-/

namespace MultiPython.Logic

open List

/-! ## Memory -/

/-- A byte for each address. -/
abbrev Memory : Type := Nat → Nat

/-- The bytes from an address on. -/
def readBytes (memory : Memory) (address : Nat) : Nat → List Nat
  | 0 => []
  | count + 1 => memory address :: readBytes memory (address + 1) count

/-- Write bytes from an address on. -/
def writeBytes (memory : Memory) (address : Nat) : List Nat → Memory
  | [] => memory
  | byte :: bytes => writeBytes (Function.update memory address byte) (address + 1) bytes

section Memory

variable {memory : Memory}

/-- Reading does not see what is elsewhere. -/
theorem readBytes_congr {other : Memory} {address count : Nat}
    (same : ∀ place, address ≤ place → place < address + count → memory place = other place) :
    readBytes memory address count = readBytes other address count := by
  induction count generalizing address with
  | zero => rfl
  | succ count ih =>
    rw [readBytes, readBytes, same address le_rfl (by omega), ih]
    exact fun place atLeast below => same place (by omega) (by omega)

/-- Writing leaves what is elsewhere. -/
theorem writeBytes_frame {bytes : List Nat} {address place : Nat}
    (outside : place < address ∨ address + bytes.length ≤ place) :
    writeBytes memory address bytes place = memory place := by
  induction bytes generalizing memory address with
  | nil => rfl
  | cons byte bytes ih =>
    rw [length_cons] at outside
    rw [writeBytes, ih (by omega), Function.update_of_ne (by omega)]

/-- What has been written is read. -/
theorem readBytes_writeBytes (bytes : List Nat) (address : Nat) :
    readBytes (writeBytes memory address bytes) address bytes.length = bytes := by
  induction bytes generalizing memory address with
  | nil => rfl
  | cons byte bytes ih =>
    rw [length_cons, readBytes, writeBytes, ih,
      writeBytes_frame (.inl (Nat.lt_succ_self _)), Function.update_self]

end Memory

/-! ## Fields -/

/-- The next multiple of an alignment. -/
def alignUp (cursor align : Nat) : Nat := (cursor + (align - 1)) / align * align

theorem le_alignUp {align : Nat} (cursor : Nat) (positive : 0 < align) :
    cursor ≤ alignUp cursor align := by
  have parts := Nat.div_add_mod (cursor + (align - 1)) align
  have small := Nat.mod_lt (cursor + (align - 1)) positive
  rw [Nat.mul_comm] at parts
  rw [alignUp]
  omega

@[simp] theorem alignUp_one (cursor : Nat) : alignUp cursor 1 = cursor := by
  simp [alignUp]

/-- A field of a layout. Only a field with an alignment of its own has to hold bytes. -/
structure Field where
  align : Nat
  size : Nat
  positive : 0 < align
  plain : size = 0 → align = 1

namespace Field

/-- Where a field starts, when the fields before it end at the cursor. -/
def start (field : Field) (cursor : Nat) : Nat := alignUp cursor field.align

/-- Where a field ends. -/
def stop (field : Field) (cursor : Nat) : Nat := field.start cursor + field.size

theorem le_start (field : Field) (cursor : Nat) : cursor ≤ field.start cursor :=
  le_alignUp cursor field.positive

theorem le_stop (field : Field) (cursor : Nat) : cursor ≤ field.stop cursor :=
  (field.le_start cursor).trans (Nat.le_add_right _ _)

theorem stop_eq_of_empty {field : Field} (empty : field.size = 0) (cursor : Nat) :
    field.stop cursor = cursor := by
  rw [stop, start, field.plain empty, alignUp_one, empty, Nat.add_zero]

end Field

/-- A field that may start anywhere. -/
def Field.packed (size : Nat) : Field := ⟨1, size, Nat.one_pos, fun _ => rfl⟩

@[simp] theorem Field.packed_size (size : Nat) : (Field.packed size).size = size := rfl

@[simp] theorem Field.packed_start (size cursor : Nat) :
    (Field.packed size).start cursor = cursor :=
  alignUp_one cursor

@[simp] theorem Field.packed_stop (size cursor : Nat) :
    (Field.packed size).stop cursor = cursor + size := by
  rw [Field.stop, Field.packed_start, Field.packed_size]

/-- The places of the fields: where each starts and its size. -/
def places (cursor : Nat) : List Field → List (Nat × Nat)
  | [] => []
  | field :: fields => (field.start cursor, field.size) :: places (field.stop cursor) fields

/-- Where the last field ends. -/
def finish (cursor : Nat) : List Field → Nat
  | [] => cursor
  | field :: fields => finish (field.stop cursor) fields

/-- Store bytes in each of the fields. -/
def store (memory : Memory) (cursor : Nat) : List (Field × List Nat) → Memory
  | [] => memory
  | (field, bytes) :: rest =>
    store (writeBytes memory (field.start cursor) bytes) (field.stop cursor) rest

/-- Load the bytes of each of the fields. -/
def load (memory : Memory) (cursor : Nat) : List Field → List (List Nat)
  | [] => []
  | field :: fields =>
    readBytes memory (field.start cursor) field.size :: load memory (field.stop cursor) fields

theorem le_finish (cursor : Nat) (fields : List Field) : cursor ≤ finish cursor fields := by
  induction fields generalizing cursor with
  | nil => exact le_rfl
  | cons field fields ih =>
    exact (field.le_stop cursor).trans (ih _)

@[simp] theorem places_append (cursor : Nat) (first second : List Field) :
    places cursor (first ++ second) =
      places cursor first ++ places (finish cursor first) second := by
  induction first generalizing cursor with
  | nil => rfl
  | cons field fields ih =>
    rw [cons_append, places, places, finish, ih, cons_append]

@[simp] theorem load_append (memory : Memory) (cursor : Nat) (first second : List Field) :
    load memory cursor (first ++ second) =
      load memory cursor first ++ load memory (finish cursor first) second := by
  induction first generalizing cursor with
  | nil => rfl
  | cons field fields ih =>
    rw [cons_append, load, load, finish, ih, cons_append]

@[simp] theorem length_load (memory : Memory) (cursor : Nat) (fields : List Field) :
    (load memory cursor fields).length = fields.length := by
  induction fields generalizing cursor with
  | nil => rfl
  | cons field fields ih =>
    rw [load, length_cons, ih, length_cons]

@[simp] theorem store_append (memory : Memory) (cursor : Nat)
    (first second : List (Field × List Nat)) :
    store memory cursor (first ++ second) =
      store (store memory cursor first) (finish cursor (first.map Prod.fst)) second := by
  induction first generalizing memory cursor with
  | nil => rfl
  | cons entry rest ih =>
    rw [cons_append, store, store, ih, map_cons, finish]

/-- The places are between the cursor and the end. -/
theorem places_within {cursor : Nat} {fields : List Field} {place : Nat × Nat}
    (member : place ∈ places cursor fields) :
    cursor ≤ place.1 ∧ place.1 + place.2 ≤ finish cursor fields := by
  induction fields generalizing cursor with
  | nil => cases member
  | cons field fields ih =>
    rcases mem_cons.mp member with rfl | later
    · exact ⟨field.le_start cursor, le_finish _ fields⟩
    · obtain ⟨lower, upper⟩ := ih later
      exact ⟨(field.le_stop cursor).trans lower, upper⟩

/-- Either no field holds a byte, and the end is the cursor, or the last byte of a field is the last
one before the end. -/
theorem finish_attained (cursor : Nat) (fields : List Field) :
    (finish cursor fields = cursor ∧ ∀ field ∈ fields, field.size = 0) ∨
      ∃ place ∈ places cursor fields, 0 < place.2 ∧ place.1 + place.2 = finish cursor fields := by
  induction fields generalizing cursor with
  | nil => exact .inl ⟨rfl, by simp⟩
  | cons field fields ih =>
    rcases ih (field.stop cursor) with ⟨ends, empty⟩ | ⟨place, member, found⟩
    · by_cases none : field.size = 0
      · exact .inl ⟨ends.trans (Field.stop_eq_of_empty none cursor),
          forall_mem_cons.mpr ⟨none, empty⟩⟩
      · exact .inr ⟨_, mem_cons_self, Nat.pos_of_ne_zero none, ends.symm⟩
    · exact .inr ⟨place, mem_cons_of_mem _ member, found⟩

/-- Storing leaves what is before the cursor. -/
theorem store_frame {memory : Memory} {cursor place : Nat} {contents : List (Field × List Nat)}
    (before : place < cursor) : store memory cursor contents place = memory place := by
  induction contents generalizing memory cursor with
  | nil => rfl
  | cons entry rest ih =>
    have atStart := entry.1.le_start cursor
    rw [store, ih (before.trans_le (entry.1.le_stop cursor)),
      writeBytes_frame (.inl (before.trans_le atStart))]

/-- What has been stored is loaded. -/
theorem load_store {contents : List (Field × List Nat)}
    (sizes : ∀ entry ∈ contents, entry.2.length = entry.1.size) (memory : Memory) (cursor : Nat) :
    load (store memory cursor contents) cursor (contents.map Prod.fst) =
      contents.map Prod.snd := by
  induction contents generalizing memory cursor with
  | nil => rfl
  | cons entry rest ih =>
    obtain ⟨size, sizes⟩ := forall_mem_cons.mp sizes
    have first : readBytes (store memory cursor (entry :: rest)) (entry.1.start cursor)
        entry.1.size = entry.2 := by
      have untouched : ∀ place, entry.1.start cursor ≤ place →
          place < entry.1.start cursor + entry.2.length →
          store memory cursor (entry :: rest) place =
            writeBytes memory (entry.1.start cursor) entry.2 place := by
        intro place _ below
        rw [store, store_frame]
        rwa [Field.stop, ← size]
      rw [← size, readBytes_congr untouched, readBytes_writeBytes]
    rw [map_cons, map_cons, load, first, store, ih sizes]

end MultiPython.Logic
