import Mathlib

/-!
# Rows of a memory

Loops that store into a memory row by row, where row `r` of width `w` begins at `w * r`. A memory
is the function from offsets to items. A store that depends on its own offset and on what
is there, and on nothing else, may be said for all offsets at once.
-/

namespace MultiPython.Logic

variable {β : Type*} {width : Nat} {store : Nat → (Nat → β) → Nat → β}

/-- The first columns of a row, one after the other. -/
theorem fold_columns {row : Nat} (value : Nat → β → β)
    (stores : ∀ column < width, ∀ memory, store column memory =
      Function.update memory (width * row + column)
        (value (width * row + column) (memory (width * row + column)))) {count : Nat}
    (inside : count ≤ width) (memory : Nat → β) (offset : Nat) :
    count.fold (fun column _ memory => store column memory) memory offset =
      if width * row ≤ offset ∧ offset < width * row + count then value offset (memory offset)
      else memory offset := by
  induction count with
  | zero => rw [Nat.fold_zero, if_neg (by omega)]
  | succ count ih =>
    rw [Nat.fold_succ, stores count inside]
    by_cases here : offset = width * row + count
    · subst here
      rw [Function.update_self, ih (by omega), if_neg (by omega),
        if_pos (by omega)]
    · rw [Function.update_of_ne here, ih (by omega)]
      exact if_congr (by omega) rfl rfl

/-- A whole row. -/
theorem fold_row (positive : 0 < width) {row : Nat} (value : Nat → β → β)
    (stores : ∀ column < width, ∀ memory, store column memory =
      Function.update memory (width * row + column)
        (value (width * row + column) (memory (width * row + column)))) (memory : Nat → β)
    (offset : Nat) :
    width.fold (fun column _ memory => store column memory) memory offset =
      if offset / width = row then value offset (memory offset) else memory offset := by
  rw [fold_columns value stores (Nat.le_refl _)]
  apply if_congr _ rfl rfl
  rw [Nat.div_eq_iff positive, Nat.mul_comm row]
  omega

/-- The rows, one after the other. -/
theorem fold_rows (value : Nat → β → β) (stores : ∀ row memory offset, store row memory offset =
      if offset / width = row then value offset (memory offset) else memory offset) (count : Nat)
    (memory : Nat → β) (offset : Nat) :
    count.fold (fun row _ memory => store row memory) memory offset =
      if offset / width < count then value offset (memory offset) else memory offset := by
  induction count with
  | zero => rw [Nat.fold_zero, if_neg (Nat.not_lt_zero _)]
  | succ count ih =>
    rw [Nat.fold_succ, stores, ih]
    by_cases here : offset / width = count
    · rw [if_pos here, if_neg (by omega), if_pos (by omega)]
    · rw [if_neg here]
      exact if_congr (by omega) rfl rfl

end MultiPython.Logic
