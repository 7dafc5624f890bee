import Mathlib

/-!
# Buffers

A block of memory of a fixed size as the list of what is in it. Loading and storing have no result
outside of the block. Contents at the front of a buffer are a prefix of that list.
-/

namespace MultiPython.Logic

open List

variable {α : Type*}

/-- `count` items from a position on. -/
def loadAt (buf : List α) (position count : Nat) : Option (List α) :=
  if position + count ≤ buf.length then some ((buf.drop position).take count) else none

/-- Store items from a position on. -/
def storeAt (buf : List α) (position : Nat) (items : List α) : Option (List α) :=
  if position + items.length ≤ buf.length then
    some (buf.take position ++ items ++ buf.drop (position + items.length))
  else none

/-- A block of another size, with what fits of the old one; what is new may be anything. -/
def resized (fill : Nat → α) (size : Nat) (buf : List α) : List α :=
  buf.take size ++ (List.range' buf.length (size - buf.length)).map fill

variable {buf after front back rest contents items : List α} {position size : Nat}

theorem loadAt_eq (buf : List α) (position count : Nat) : loadAt buf position count =
    if position + count ≤ buf.length then some ((buf.drop position).take count) else none := rfl

theorem storeAt_eq (buf : List α) (position : Nat) (items : List α) :
    storeAt buf position items = if position + items.length ≤ buf.length then
      some (buf.take position ++ items ++ buf.drop (position + items.length)) else none := rfl

/-- A store that succeeds is inside of the block. -/
theorem storeAt_some (stored : storeAt buf position items = some after) :
    position + items.length ≤ buf.length ∧
      after = buf.take position ++ items ++ buf.drop (position + items.length) := by
  rw [storeAt_eq] at stored
  obtain ⟨inside, same⟩ := Option.ite_none_right_eq_some.mp stored
  exact ⟨inside, (Option.some.inj same).symm⟩

theorem loadAt_append : loadAt (front ++ items ++ rest) front.length items.length = some items := by
  simp [loadAt_eq]

theorem storeAt_append (same : items.length = back.length) :
    storeAt (front ++ back ++ rest) front.length items = some (front ++ items ++ rest) := by
  have inside : front.length + items.length ≤ (front ++ back ++ rest).length := by
    simp only [length_append]
    omega
  have skipped : (front ++ back ++ rest).drop (front.length + items.length) = rest := by
    rw [same, ← length_append, drop_left]
  rw [storeAt_eq, if_pos inside, skipped, append_assoc front back rest, take_left]

/-- A store keeps the size of the block. -/
theorem length_of_storeAt (stored : storeAt buf position items = some after) :
    after.length = buf.length := by
  obtain ⟨inside, rfl⟩ := storeAt_some stored
  simp only [length_append, length_take, length_drop]
  omega

/-- A store may replace the whole block. -/
theorem storeAt_whole (same : items.length = buf.length) : storeAt buf 0 items = some items := by
  have nothing : buf.drop (0 + items.length) = [] := drop_of_length_le (by omega)
  rw [storeAt_eq, if_pos (by omega), nothing, take_zero, nil_append, append_nil]

/-- A store inside of the block has a result. -/
theorem storeAt_isSome (inside : position + items.length ≤ buf.length) :
    ∃ after, storeAt buf position items = some after :=
  ⟨_, if_pos inside⟩

/-- A store at the end of the contents appends to them. -/
theorem storeAt_contents (holds : contents <+: buf)
    (inside : contents.length + items.length ≤ buf.length) :
    ∃ after, storeAt buf contents.length items = some after ∧ contents ++ items <+: after ∧
      after.length = buf.length := by
  obtain ⟨spare, rfl⟩ := holds
  have room : items.length ≤ spare.length := by simpa using inside
  have split : contents ++ spare =
      contents ++ spare.take items.length ++ spare.drop items.length := by
    rw [append_assoc, take_append_drop]
  have stored : storeAt (contents ++ spare) contents.length items =
      some (contents ++ items ++ spare.drop items.length) := by
    rw [split]
    exact storeAt_append (by rw [length_take, Nat.min_eq_left room])
  exact ⟨_, stored, prefix_append _ _, length_of_storeAt stored⟩

/-- A store behind the contents does not change them. -/
theorem storeAt_behind (holds : contents <+: buf) (behind : contents.length ≤ position)
    (stored : storeAt buf position items = some after) : contents <+: after := by
  obtain ⟨inside, rfl⟩ := storeAt_some stored
  have kept : contents <+: buf.take position := prefix_take_iff.mpr ⟨holds, behind⟩
  rw [append_assoc]
  exact kept.trans (prefix_append _ _)

/-- A store that begins inside of the contents overwrites them, and may make them longer. -/
theorem storeAt_within (holds : contents <+: buf) (begins : position ≤ contents.length)
    (inside : position + items.length ≤ buf.length) :
    ∃ after, storeAt buf position items = some after ∧ after.length = buf.length ∧
      contents.take position ++ items ++ contents.drop (position + items.length) <+: after := by
  obtain ⟨after, stored⟩ := storeAt_isSome inside
  refine ⟨after, stored, length_of_storeAt stored, ?_⟩
  obtain ⟨spare, rfl⟩ := holds
  obtain ⟨-, rfl⟩ := storeAt_some stored
  rw [take_append_of_le_length begins, drop_append, ← append_assoc]
  exact prefix_append _ _

/-- Contents in the middle are loaded. -/
theorem loadAt_contents (holds : front ++ items <+: buf) :
    loadAt buf front.length items.length = some items := by
  obtain ⟨spare, rfl⟩ := holds
  exact loadAt_append

theorem loadAt_within (holds : contents <+: buf) {count : Nat}
    (inside : position + count ≤ contents.length) :
    loadAt buf position count = some ((contents.drop position).take count) := by
  obtain ⟨spare, rfl⟩ := holds
  have within : position + count ≤ (contents ++ spare).length := by
    rw [length_append]
    omega
  rw [loadAt_eq, if_pos within, drop_append_of_le_length (by omega),
    take_append_of_le_length (by rw [length_drop]; omega)]

/-- A store changes nothing before the position. -/
theorem take_storeAt (stored : storeAt buf position items = some after) {count : Nat}
    (before : count ≤ position) : after.take count = buf.take count := by
  obtain ⟨inside, rfl⟩ := storeAt_some stored
  rw [append_assoc, take_append_of_le_length (by rw [length_take]; omega),
    take_take, Nat.min_eq_left before]

theorem drop_storeAt (stored : storeAt buf position items = some after) :
    after.drop position = items ++ buf.drop (position + items.length) := by
  obtain ⟨inside, rfl⟩ := storeAt_some stored
  have length : (buf.take position).length = position := by
    rw [length_take]
    omega
  rw [append_assoc]
  exact drop_left' length

/-- A store changes nothing behind what is stored. -/
theorem drop_storeAt_behind (stored : storeAt buf position items = some after) {count : Nat}
    (behind : position + items.length ≤ count) : after.drop count = buf.drop count := by
  obtain ⟨more, rfl⟩ := Nat.exists_eq_add_of_le behind
  rw [Nat.add_assoc, ← drop_drop, drop_storeAt stored, ← drop_drop, drop_left,
    drop_drop, Nat.add_assoc]

/-- A part of the contents is replaced by more: what is behind it is moved up first. -/
theorem storeAt_replace {middle : List α} (holds : front ++ middle ++ back <+: buf)
    (room : front.length + items.length + back.length ≤ buf.length) :
    ∃ moved filled, storeAt buf (front.length + items.length) back = some moved ∧
      storeAt moved front.length items = some filled ∧ front ++ items ++ back <+: filled ∧
      filled.length = buf.length := by
  obtain ⟨moved, moves⟩ := storeAt_isSome room
  have length := length_of_storeAt moves
  obtain ⟨filled, fills⟩ := @storeAt_isSome _ moved items front.length (by omega)
  refine ⟨moved, filled, moves, fills, ?_, (length_of_storeAt fills).trans length⟩
  obtain ⟨spare, rfl⟩ := holds
  have kept : filled.take front.length = front := by
    rw [take_storeAt fills (Nat.le_refl _), take_storeAt moves (Nat.le_add_right _ _),
      append_assoc, append_assoc, take_left]
  have new := drop_storeAt fills
  rw [drop_storeAt moves] at new
  rw [← take_append_drop front.length filled, kept, new, append_assoc]
  exact (prefix_append_right_inj _).mpr
    ((prefix_append_right_inj _).mpr (prefix_append _ _))

/-- A part of the contents is replaced by less: it is overwritten, and what is behind it is moved
down. -/
theorem storeAt_shrink {middle : List α} (holds : front ++ middle ++ back <+: buf)
    (less : items.length ≤ middle.length) :
    ∃ copied moved, storeAt buf front.length items = some copied ∧
      loadAt copied (front.length + middle.length) back.length = some back ∧
      storeAt copied (front.length + items.length) back = some moved ∧
      front ++ items ++ back <+: moved ∧ moved.length = buf.length := by
  obtain ⟨spare, rfl⟩ := holds
  obtain ⟨copied, copies⟩ := @storeAt_isSome _ (front ++ middle ++ back ++ spare) items front.length
    (by simp only [length_append]; omega)
  have length := length_of_storeAt copies
  have behind : copied.drop (front.length + middle.length) = back ++ spare := by
    rw [drop_storeAt_behind copies (by omega), append_assoc, ← length_append,
      drop_left]
  have inside : front.length + middle.length + back.length ≤ copied.length := by
    rw [length]
    simp only [length_append]
    omega
  obtain ⟨moved, moves⟩ := @storeAt_isSome _ copied back (front.length + items.length) (by omega)
  refine ⟨copied, moved, copies, ?_, moves, ?_, (length_of_storeAt moves).trans length⟩
  · rw [loadAt_eq, if_pos inside, behind, take_left]
  · have kept : moved.take (front.length + items.length) = front ++ items := by
      rw [take_storeAt moves (Nat.le_refl _), take_add, take_storeAt copies (Nat.le_refl _),
        drop_storeAt copies, take_left, append_assoc, append_assoc, take_left]
    rw [← take_append_drop (front.length + items.length) moved, kept, drop_storeAt moves]
    exact (prefix_append_right_inj _).mpr (prefix_append _ _)

/-- To open a gap, the contents behind it are moved up and the gap is filled. -/
theorem storeAt_gap (holds : front ++ back <+: buf)
    (room : front.length + back.length + items.length ≤ buf.length) :
    ∃ moved filled, storeAt buf (front.length + items.length) back = some moved ∧
      storeAt moved front.length items = some filled ∧ front ++ items ++ back <+: filled ∧
      filled.length = buf.length := by
  refine @storeAt_replace _ buf front back items [] ?_ (by omega)
  rw [append_nil]
  exact holds

@[simp]
theorem length_resized (fill : Nat → α) (size : Nat) (buf : List α) :
    (resized fill size buf).length = size := by
  simp only [resized, length_append, length_take, length_map, length_range']
  omega

/-- Contents that fit into the new block are kept. -/
theorem prefix_resized (holds : contents <+: buf) (fits : contents.length ≤ size)
    (fill : Nat → α) : contents <+: resized fill size buf :=
  (prefix_take_iff.mpr ⟨holds, fits⟩).trans (prefix_append _ _)

end MultiPython.Logic
