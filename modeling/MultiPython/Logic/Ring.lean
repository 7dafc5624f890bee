import Mathlib

/-!
# A ring that keeps one cell empty

A ring of `size` cells holds at most `size - 1` entries, from the read index up to
the write index, both of which start again at zero behind the last cell.
`Represents` relates the cells and the two indices to the list of entries; the
lemmas say what reading and writing a cell and stepping an index do to that list.
-/

namespace MultiPython.Logic.Ring

open List Function

variable {α : Type*} {size : Nat}

/-- The index behind `index`. -/
def next (size index : Nat) : Nat := if index + 1 ≥ size then 0 else index + 1

/-- The cell `offset` places behind `start`. -/
def place (size start offset : Nat) : Nat :=
  if start + offset < size then start + offset else start + offset - size

theorem place_zero {start : Nat} (inside : start < size) : place size start 0 = start := by
  rw [place, if_pos (by omega), Nat.add_zero]

theorem place_succ {start offset : Nat} (inside : start < size) (short : offset < size) :
    next size (place size start offset) = place size start (offset + 1) := by
  unfold next place
  split <;> split <;> split <;> omega

theorem place_next {start offset : Nat} (inside : start < size) (short : offset + 1 < size) :
    place size (next size start) offset = place size start (offset + 1) := by
  unfold next place
  split <;> split <;> split <;> omega

theorem place_inj {start first second : Nat} (firstShort : first < size)
    (secondShort : second < size) :
    place size start first = place size start second ↔ first = second := by
  unfold place
  split <;> split <;> omega

theorem next_lt {index : Nat} (inside : index < size) : next size index < size := by
  unfold next
  split <;> omega

/-- The cells from the read index up to the write index hold these entries. -/
structure Represents (size : Nat) (cells : Nat → α) (read write : Nat) (entries : List α) :
    Prop where
  inside : read < size
  short : entries.length < size
  writeAt : write = place size read entries.length
  holds : ∀ offset < entries.length, entries[offset]? = some (cells (place size read offset))

namespace Represents

variable {cells : Nat → α} {read write : Nat} {entries : List α}

/-- A ring whose indices meet is empty. -/
theorem empty (cells : Nat → α) (inside : read < size) : Represents size cells read read [] :=
  ⟨inside, by simp; omega, (place_zero inside).symm, fun _ below => absurd below (by simp)⟩

section

variable (ring : Represents size cells read write entries)

include ring

/-- The indices meet only when the ring is empty. -/
theorem eq_iff : read = write ↔ entries = [] := by
  have short := ring.short
  have meets := @place_inj size read _ _ (show 0 < size by omega) short
  rw [place_zero ring.inside, ← ring.writeAt] at meets
  rw [meets, eq_comm, length_eq_zero_iff]

/-- The write index stands just before the read index only when the ring is full. -/
theorem next_eq_iff :
    next size write = read ↔ entries.length + 1 = size := by
  have short := ring.short
  have inside := ring.inside
  rw [ring.writeAt, place_succ inside short]
  unfold place
  split <;> omega

/-- Write one more entry. -/
theorem push (room : entries.length + 1 < size) (entry : α) :
    Represents size (Function.update cells write entry) read (next size write)
      (entries ++ [entry]) where
  inside := ring.inside
  short := by simpa using room
  writeAt := by
    rw [ring.writeAt, place_succ ring.inside ring.short, length_append, length_singleton]
  holds := by
    intro offset below
    rw [length_append, length_singleton] at below
    by_cases last : offset = entries.length
    · subst last
      rw [← ring.writeAt, update_self]
      simp
    · have apart : place size read offset ≠ write := by
        rw [ring.writeAt]
        intro same
        exact last ((place_inj (by omega) ring.short).mp same)
      rw [update_of_ne apart, List.getElem?_append_left (by omega)]
      exact ring.holds offset (by omega)

/-- The entry at the read index is the oldest one. -/
theorem head (some_ : entries ≠ []) :
    entries.head? = some (cells read) := by
  have first := ring.holds 0 (length_pos_iff.mpr some_)
  rwa [place_zero ring.inside, ← List.head?_eq_getElem?] at first

/-- Step over the oldest entry. -/
theorem pop (some_ : entries ≠ []) :
    Represents size cells (next size read) write entries.tail := by
  have positive := length_pos_iff.mpr some_
  have short := ring.short
  have length : entries.tail.length + 1 = entries.length := by
    rw [length_tail]
    omega
  refine ⟨next_lt ring.inside, by omega, ?_, fun offset below => ?_⟩
  · rw [place_next ring.inside (by omega), length]
    exact ring.writeAt
  · rw [place_next ring.inside (by omega), List.getElem?_tail]
    exact ring.holds (offset + 1) (by omega)

/-- Step over the oldest entry and overwrite its cell. -/
theorem popCleared (some_ : entries ≠ []) (left : α) :
    Represents size (Function.update cells read left) (next size read) write entries.tail := by
  have popped := ring.pop some_
  refine ⟨popped.inside, popped.short, popped.writeAt, fun offset below => ?_⟩
  have positive := length_pos_iff.mpr some_
  have short := ring.short
  rw [length_tail] at below
  have apart : place size (next size read) offset ≠ read := by
    rw [place_next ring.inside (by omega)]
    intro same
    have zero := (place_inj (by omega) (by omega)).mp (same.trans (place_zero ring.inside).symm)
    omega
  rw [update_of_ne apart]
  exact popped.holds offset (by rwa [length_tail])

/-- The number of entries, from the indices. -/
theorem length_eq :
    entries.length = if read ≤ write then write - read else write + size - read := by
  have short := ring.short
  have inside := ring.inside
  have writeAt := ring.writeAt
  unfold place at writeAt
  split <;> split at writeAt <;> omega

end

end Represents

/-- The entries between two indices. -/
def entriesBetween (size : Nat) (cells : Nat → α) (read write : Nat) : List α :=
  (List.range (if read ≤ write then write - read else write + size - read)).map
    fun offset => cells (place size read offset)

/-- A ring with any two indices inside it holds the entries between them. -/
theorem represents_entriesBetween (cells : Nat → α) {read write : Nat} (inside : read < size)
    (writeInside : write < size) :
    Represents size cells read write (entriesBetween size cells read write) := by
  have length : (entriesBetween size cells read write).length =
      if read ≤ write then write - read else write + size - read := by simp [entriesBetween]
  refine ⟨inside, ?_, ?_, fun offset below => ?_⟩
  · rw [length]
    split <;> omega
  · rw [length]
    unfold place
    split <;> split <;> omega
  · rw [length] at below
    simp [entriesBetween, below]

/-- A ring holds one list of entries only. -/
theorem Represents.entries_eq {cells : Nat → α} {read write : Nat} {entries : List α}
    (ring : Represents size cells read write entries) :
    entriesBetween size cells read write = entries := by
  have length := ring.length_eq
  apply ext_getElem?
  intro offset
  by_cases below : offset < entries.length
  · rw [ring.holds offset below]
    rw [length] at below
    simp [entriesBetween, below]
  · rw [List.getElem?_eq_none (Nat.le_of_not_lt below)]
    apply List.getElem?_eq_none
    rw [entriesBetween, length_map, length_range, ← length]
    exact Nat.le_of_not_lt below

end MultiPython.Logic.Ring
