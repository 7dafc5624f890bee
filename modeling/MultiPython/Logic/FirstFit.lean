import Mathlib

/-!
# First-fit search for a run

`seek` walks a line of cells and counts the free ones it has just passed, starting
again at every cell that is in use, and stops at the cell that completes a run of
the length asked for. `seek_spec` says that it stops at the first such cell, and
that there is no run at all if it does not stop.
-/

namespace MultiPython.Logic.FirstFit

/-- `length` consecutive free cells from `first` on. A run has at least one cell. -/
structure FreeRun (free : Nat → Bool) (first length : Nat) : Prop where
  positive : 0 < length
  cells : ∀ cell, first ≤ cell → cell < first + length → free cell = true

/-- Visit `fuel` cells from `cell` on, with `run` free cells just passed. Stop with
the last cell and the length of the run, or go on with the count. -/
def seek (free : Nat → Bool) (needed : Nat) : Nat → Nat → Nat → Except (Nat × Nat) Nat
  | 0, _, run => .ok run
  | fuel + 1, cell, run =>
    if free cell then
      if needed ≤ run + 1 then .error (cell, run + 1) else seek free needed fuel (cell + 1) (run + 1)
    else
      seek free needed fuel (cell + 1) 0

/-- A search can be cut into two that share the count. -/
theorem seek_append (free : Nat → Bool) (needed first second cell run : Nat) :
    seek free needed (first + second) cell run =
      (seek free needed first cell run).bind (seek free needed second (cell + first)) := by
  induction first generalizing cell run with
  | zero =>
    rw [Nat.zero_add]
    rfl
  | succ first ih =>
    rw [Nat.succ_add]
    have place : cell + 1 + first = cell + (first + 1) := by omega
    simp only [seek, ih, place]
    split
    · split <;> rfl
    · rfl

/-- What is known after all cells from `start` up to `cell` were visited in vain: `run`
is the longest run that ends here, and it is too short. -/
structure Searched (free : Nat → Bool) (needed start cell run : Nat) : Prop where
  short : run < needed
  within : start + run ≤ cell
  passed : ∀ other, cell - run ≤ other → other < cell → free other = true
  longest : start + run = cell ∨ free (cell - run - 1) = false
  none : ∀ first, start ≤ first → first + needed ≤ cell → ¬ FreeRun free first needed

/-- A search from `start` finds the first run that is long enough. -/
theorem seek_spec {free : Nat → Bool} {needed start : Nat} (fuel : Nat) {cell run : Nat}
    (searched : Searched free needed start cell run) :
    (∀ last length, seek free needed fuel cell run = .error (last, length) →
      length = needed ∧ start + needed ≤ last + 1 ∧ last < cell + fuel ∧
        FreeRun free (last + 1 - needed) needed ∧
        ∀ first, start ≤ first → first + needed ≤ last → ¬ FreeRun free first needed) ∧
      (∀ count, seek free needed fuel cell run = .ok count →
        ∀ first, start ≤ first → first + needed ≤ cell + fuel → ¬ FreeRun free first needed) := by
  induction fuel generalizing cell run with
  | zero =>
    refine ⟨fun last length stopped => ?_, fun count _ first low high => ?_⟩
    · cases stopped
    · exact searched.none first low high
  | succ fuel ih =>
    have short := searched.short
    have within := searched.within
    rw [show cell + (fuel + 1) = cell + 1 + fuel by omega]
    by_cases here : free cell = true
    · by_cases enough : needed ≤ run + 1
      · simp only [seek, here, enough, if_true]
        refine ⟨fun last length stopped => ?_, fun count ended => by cases ended⟩
        cases stopped
        refine ⟨by omega, by omega, by omega, ⟨by omega, fun other low high => ?_⟩,
          fun first low high => searched.none first low high⟩
        by_cases isLast : other = cell
        · exact isLast ▸ here
        · exact searched.passed other (by omega) (by omega)
      · simp only [seek, here, enough, if_true, if_false]
        apply ih
        refine ⟨by omega, by omega, fun other low high => ?_, ?_, fun first low high free' => ?_⟩
        · by_cases isLast : other = cell
          · exact isLast ▸ here
          · exact searched.passed other (by omega) (by omega)
        · rcases searched.longest with fromStart | used
          · exact Or.inl (by omega)
          · rw [show cell + 1 - (run + 1) - 1 = cell - run - 1 by omega]
            exact Or.inr used
        · -- A run that ends at `cell` would be longer than the longest one.
          by_cases early : first + needed ≤ cell
          · exact searched.none first low early free'
          · rcases searched.longest with fromStart | used
            · omega
            · have inRun := free'.cells (cell - run - 1) (by omega) (by omega)
              simp [used] at inRun
    · simp only [seek, here]
      apply ih
      refine ⟨by omega, by omega, fun other low high => absurd high (by omega), ?_,
        fun first low high free' => ?_⟩
      · exact Or.inr (by simpa using here)
      · by_cases early : first + needed ≤ cell
        · exact searched.none first low early free'
        · exact here (free'.cells cell (by omega) (by omega))

/-- A search that has not visited any cell yet. -/
theorem Searched.start (free : Nat → Bool) {needed : Nat} (positive : 0 < needed) (start : Nat) :
    Searched free needed start start 0 :=
  ⟨positive, le_rfl, fun _ low high => absurd high (by omega), Or.inl rfl,
    fun _ low high => absurd high (by omega)⟩

end MultiPython.Logic.FirstFit
