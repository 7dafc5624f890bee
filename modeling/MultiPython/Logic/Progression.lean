import Mathlib

/-!
# Progressions

The integers from a start to before a stop, by a step up or down: how many there are, the one at a
place, and the first one with the rest.
-/

namespace MultiPython.Logic

open List Option

/-- An integer that a step up or down has not taken to the stop yet. -/
def Before (step x stop : Int) : Prop := if 0 < step then x < stop else stop < x

instance (step x stop : Int) : Decidable (Before step x stop) :=
  inferInstanceAs (Decidable (if 0 < step then x < stop else stop < x))

/-- The number of steps from a start to the first integer that is not before the stop. -/
def stepsTo (start stop step : Int) : Nat :=
  if 0 < step then ((stop - start + step - 1) / step).toNat
  else ((start - stop - step - 1) / -step).toNat

/-- A number of integers, each one a step from the one before. -/
def progression (start step : Int) (count : Nat) : List Int :=
  (List.range count).map fun i : Nat => start + i * step

/-- The integers from a start to before a stop. -/
def rangeOf (start stop step : Int) : List Int := progression start step (stepsTo start stop step)

section Progressions

variable {start stop step x : Int} {count i : Nat}

theorem before_up (up : 0 < step) : Before step x stop ↔ x < stop := by rw [Before, if_pos up]

theorem before_down (down : step < 0) : Before step x stop ↔ stop < x := by
  rw [Before, if_neg (by omega)]

@[simp] theorem length_progression : (progression start step count).length = count := by
  simp [progression]

theorem getElem?_progression (inside : i < count) :
    (progression start step count)[i]? = some (start + i * step) := by
  simp [progression, inside]

theorem mem_progression : x ∈ progression start step count ↔ ∃ i < count, start + i * step = x := by
  simp [progression]

theorem progression_succ :
    progression start step (count + 1) = start :: progression (start + step) step count := by
  rw [progression, range_succ_eq_map, map_cons, List.map_map, progression]
  congr 1
  · simp
  · apply map_congr_left
    intro i _
    simp only [Function.comp_apply, Nat.cast_succ]
    ring

/-- The place of an integer is one of the places if it is before the stop. -/
theorem lt_stepsTo_iff (nonzero : step ≠ 0) :
    i < stepsTo start stop step ↔ Before step (start + i * step) stop := by
  rcases lt_or_gt_of_ne nonzero with down | up
  · rw [stepsTo, if_neg (by omega), before_down down, Int.lt_toNat, Int.lt_iff_add_one_le,
      Int.le_ediv_iff_mul_le (by omega)]
    constructor
    · intro room
      linarith
    · intro room
      linarith
  · rw [stepsTo, if_pos up, before_up up, Int.lt_toNat, Int.lt_iff_add_one_le,
      Int.le_ediv_iff_mul_le up]
    constructor
    · intro room
      linarith
    · intro room
      linarith

theorem stepsTo_of_not_before (nonzero : step ≠ 0) (ended : ¬ Before step start stop) :
    stepsTo start stop step = 0 := by
  by_contra some_
  apply ended
  have first := (@lt_stepsTo_iff start stop step 0 nonzero).mp (by omega)
  rwa [Nat.cast_zero, Int.zero_mul, Int.add_zero] at first

theorem stepsTo_of_before (nonzero : step ≠ 0) (going : Before step start stop) :
    stepsTo start stop step = stepsTo (start + step) stop step + 1 := by
  have some_ : 0 < stepsTo start stop step := by
    rw [lt_stepsTo_iff nonzero, Nat.cast_zero, Int.zero_mul, Int.add_zero]
    exact going
  have same (i : Nat) : i < stepsTo (start + step) stop step ↔ i + 1 < stepsTo start stop step := by
    rw [lt_stepsTo_iff nonzero, lt_stepsTo_iff nonzero]
    have place : start + step + i * step = start + (i + 1 : Nat) * step := by
      push_cast
      ring
    rw [place]
  have atMost := (same (stepsTo start stop step - 1)).not
  have atLeast := (same (stepsTo start stop step - 2)).not
  have least := same (stepsTo (start + step) stop step)
  omega

theorem rangeOf_of_not_before (nonzero : step ≠ 0) (ended : ¬ Before step start stop) :
    rangeOf start stop step = [] := by
  rw [rangeOf, stepsTo_of_not_before nonzero ended]
  rfl

theorem rangeOf_of_before (nonzero : step ≠ 0) (going : Before step start stop) :
    rangeOf start stop step = start :: rangeOf (start + step) stop step := by
  rw [rangeOf, stepsTo_of_before nonzero going, progression_succ, rangeOf]

/-- The last integer of a progression. -/
theorem getLast?_progression :
    (progression start step (count + 1)).getLast? = some (start + count * step) := by
  rw [getLast?_eq_getElem?, length_progression, Nat.add_sub_cancel,
    getElem?_progression (Nat.lt_succ_self count)]

/-- A progression up has no integer above its last one. -/
theorem le_getLast?_rangeOf (up : 0 ≤ step) {last : Int} (isIn : x ∈ rangeOf start stop step)
    (isLast : last ∈ (rangeOf start stop step).getLast?) : x ≤ last := by
  rw [rangeOf] at isIn isLast
  obtain ⟨i, inside, rfl⟩ := mem_progression.mp isIn
  obtain ⟨count, isCount⟩ := Nat.exists_eq_succ_of_ne_zero (Nat.ne_zero_of_lt inside)
  rw [isCount, Nat.succ_eq_add_one, getLast?_progression, mem_some_iff] at isLast
  rw [← isLast]
  have fewer : (i : Int) ≤ count := by omega
  have steps := mul_le_mul_of_nonneg_right fewer up
  omega

/-- The integers of a range are those that steps reach before the stop. -/
theorem mem_rangeOf (nonzero : step ≠ 0) :
    x ∈ rangeOf start stop step ↔ ∃ i : Nat, x = start + i * step ∧ Before step x stop := by
  rw [rangeOf, mem_progression]
  constructor
  · rintro ⟨i, inside, rfl⟩
    exact ⟨i, rfl, (lt_stepsTo_iff nonzero).mp inside⟩
  · rintro ⟨i, rfl, before⟩
    exact ⟨i, (lt_stepsTo_iff nonzero).mpr before, rfl⟩

/-- Ranges whose steps are before their stops at the same places have the same number of integers. -/
theorem stepsTo_congr {otherStart otherStop otherStep : Int} (nonzero : step ≠ 0)
    (otherNonzero : otherStep ≠ 0)
    (same : ∀ i : Nat, Before step (start + i * step) stop ↔
      Before otherStep (otherStart + i * otherStep) otherStop) :
    stepsTo start stop step = stepsTo otherStart otherStop otherStep := by
  apply Nat.le_antisymm
  · by_contra more
    have inside := (lt_stepsTo_iff nonzero).mp (not_le.mp more)
    exact lt_irrefl _ ((lt_stepsTo_iff otherNonzero).mpr ((same _).mp inside))
  · by_contra more
    have inside := (lt_stepsTo_iff otherNonzero).mp (not_le.mp more)
    exact lt_irrefl _ ((lt_stepsTo_iff nonzero).mpr ((same _).mpr inside))

/-- Equal progressions are equally long, and begin and step the same unless they are too short to
show it. -/
theorem progression_eq_iff {otherStart otherStep : Int} {otherCount : Nat} :
    progression start step count = progression otherStart otherStep otherCount ↔
      count = otherCount ∧
        (count = 0 ∨ start = otherStart ∧ (count = 1 ∨ step = otherStep)) := by
  constructor
  · intro same
    have length := congrArg List.length same
    simp only [length_progression] at length
    subst length
    refine ⟨rfl, ?_⟩
    by_cases some_ : count = 0
    · exact .inl some_
    · have first := congrArg (fun integers => integers[0]?) same
      simp only [getElem?_progression (Nat.pos_of_ne_zero some_), Nat.cast_zero, Int.zero_mul,
        Int.add_zero, some.injEq] at first
      refine .inr ⟨first, ?_⟩
      by_cases isOne : count = 1
      · exact .inl isOne
      · have second := congrArg (fun integers => integers[1]?) same
        have inside : 1 < count := by omega
        simp only [getElem?_progression inside, Nat.cast_one, Int.one_mul, some.injEq] at second
        exact .inr (by omega)
  · rintro ⟨rfl, rfl | ⟨rfl, rfl | rfl⟩⟩
    · rfl
    · simp [progression]
    · rfl

/-- A range of places, moved and stretched. -/
theorem rangeOf_affine {offset scale : Int} (nonzero : step ≠ 0) (scaleNonzero : scale ≠ 0) :
    rangeOf (offset + start * scale) (offset + stop * scale) (step * scale) =
      (rangeOf start stop step).map fun place => offset + place * scale := by
  have same : stepsTo (offset + start * scale) (offset + stop * scale) (step * scale) =
      stepsTo start stop step := by
    apply stepsTo_congr (mul_ne_zero nonzero scaleNonzero) nonzero
    intro i
    have place : offset + start * scale + i * (step * scale) =
        offset + (start + i * step) * scale := by ring
    rw [place]
    rcases lt_or_gt_of_ne nonzero with down | up
    · rcases lt_or_gt_of_ne scaleNonzero with shrinks | grows
      · rw [before_up (mul_pos_of_neg_of_neg down shrinks), before_down down,
          Int.add_lt_add_iff_left, Int.mul_lt_mul_right_of_neg shrinks]
      · rw [before_down (mul_neg_of_neg_of_pos down grows), before_down down,
          Int.add_lt_add_iff_left, Int.mul_lt_mul_right grows]
    · rcases lt_or_gt_of_ne scaleNonzero with shrinks | grows
      · rw [before_down (mul_neg_of_pos_of_neg up shrinks), before_up up,
          Int.add_lt_add_iff_left, Int.mul_lt_mul_right_of_neg shrinks]
      · rw [before_up (mul_pos up grows), before_up up, Int.add_lt_add_iff_left,
          Int.mul_lt_mul_right grows]
  rw [rangeOf, rangeOf, same, progression, progression, List.map_map]
  apply map_congr_left
  intro i _
  simp only [Function.comp_apply]
  ring

end Progressions

end MultiPython.Logic
