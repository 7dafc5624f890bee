import MultiPython.Obj.Slice

/-!
# Range objects

`py/objrange.c`: a range as three machine words, with the arithmetic of machine words. A quotient
that is no machine word has no result. What a range should do is said by the integers from its start
to before its stop.
-/

namespace MultiPython.Obj

open Logic MultiPython.Num Str Option

/-- `mp_obj_range_t`. -/
structure MpRange where
  start : Int
  stop : Int
  step : Int
deriving DecidableEq

section Code

variable (config : NumConfig)

/-- `range_make_new`, of integers. -/
def rangeMakeNew : List Int → Except SliceError MpRange
  | [stop] => do
      let stop ← getInt config stop
      .ok ⟨0, stop, 1⟩
  | [start, stop] => do
      let start ← getInt config start
      let stop ← getInt config stop
      .ok ⟨start, stop, 1⟩
  | [start, stop, step] => do
      let start ← getInt config start
      let stop ← getInt config stop
      let step ← getInt config step
      if step = 0 then .error (.raised .valueError) else .ok ⟨start, stop, step⟩
  | _ => .error (.raised .typeError)

/-- `range_it_iternext` of an iterator at `o.start`: the integer and the iterator behind it, or
nothing at the end. -/
def rangeItIternext (o : MpRange) : Option (Int × MpRange) :=
  if o.step > 0 ∧ o.start < o.stop ∨ o.step < 0 ∧ o.start > o.stop then
    some (config.newSmallInt o.start, { o with start := config.word (o.start + o.step) })
  else none

/-- The integers of an iterator that ends within a number of calls. -/
def drain : Nat → MpRange → Option (List Int)
  | 0, _ => none
  | calls + 1, o =>
    (rangeItIternext config o).elim (some []) fun next =>
      (drain calls next.2).map (next.1 :: ·)

def rangeLen (self : MpRange) : Option Int :=
  let len := config.word (self.stop - self.start + self.step)
  let len := if self.step > 0 then config.word (len - 1) else config.word (len + 1)
  let len := len.tdiv self.step
  if IsMachineInt config.wordBits len then some (if len < 0 then 0 else len) else none

/-- `range_unary_op` for the length. -/
def rangeUnaryOp (self : MpRange) : Option Int := (rangeLen config self).map config.newSmallInt

/-- `range_binary_op` for the equality. -/
def rangeBinaryOp (lhs rhs : MpRange) : Option Bool := do
  let lhsLen ← rangeLen config lhs
  let rhsLen ← rangeLen config rhs
  some (lhsLen = rhsLen ∧
    (lhsLen = 0 ∨ lhs.start = rhs.start ∧ (lhsLen = 1 ∨ lhs.step = rhs.step)))

/-- `range_subscr` for the load at an index. -/
def rangeSubscr (self : MpRange) (index : IndexObj) : Option (Except ListError Int) := do
  let len ← rangeLen config self
  some ((getIndex config.wordBits len.toNat index).map fun indexVal : Nat =>
    config.newSmallInt (config.word (self.start + indexVal * self.step)))

/-- `range_subscr` for the load of a slice. -/
def rangeSubscrSlice (self : MpRange) (index : SliceObj) : Option (Except SliceError MpRange) := do
  let len ← rangeLen config self
  some ((mpSeqGetFastSliceIndexes config (wrappingSum config) len.toNat index).map fun slice : MpBoundSlice =>
    let stop := config.word (self.start + slice.stop * self.step)
    { start := config.word (self.start + slice.start * self.step)
      stop := if slice.step < 0 then config.word (stop - self.step) else stop
      step := config.word (slice.step * self.step) })

end Code

/-! ## What a range denotes -/

/-- The integers of a range. -/
def MpRange.elements (r : MpRange) : List Int := rangeOf r.start r.stop r.step

/-- The number of the integers of a range. -/
def MpRange.count (r : MpRange) : Nat := stepsTo r.start r.stop r.step

/-- The integer of a range at an index; a negative one counts from the end. -/
def MpRange.elementAt (r : MpRange) (i : Int) : Except ListError Int :=
  let place := if i < 0 then i + r.count else i
  if 0 ≤ place then (r.elements[place.toNat]?).elim (.error .indexError) .ok else .error .indexError

/-- A range that `range()` makes. -/
def MpRange.Accepted (r : MpRange) (config : NumConfig) : Prop :=
  ∃ args, rangeMakeNew config args = .ok r

section Properties

variable (config : NumConfig) (r : MpRange)

/-- The iterator gives the integers of the range and ends. -/
def MpRange.Iterates : Prop := ∃ calls, drain config calls r = some r.elements

/-- The length is the number of the integers, also as an object. -/
def MpRange.LengthRight : Prop :=
  rangeLen config r = some (r.count : Int) ∧ rangeUnaryOp config r = some (r.count : Int)

/-- Every index gives the integer that is there. -/
def MpRange.IndexRight : Prop :=
  ∀ index i, index.value = some i → IsMachineInt config.wordBits i →
    rangeSubscr config r index = some (r.elementAt i)

/-- The range is equal to the ranges with the same integers. -/
def MpRange.EqualRight (other : MpRange) : Prop :=
  rangeBinaryOp config r other = some (decide (r.elements = other.elements))

/-- A slice gives a range of the integers at the places that it selects. -/
def MpRange.SliceRight (slice : SliceObj) : Prop :=
  ∃ selected, rangeSubscrSlice config r slice = some (.ok selected) ∧
    selected.elements = (slice.places r.count).map fun place => r.start + place * r.step

/-- The distance from the start to the stop, with the step but one, and the number of integers are
machine words. -/
def MpRange.LengthFits : Prop :=
  IsMachineInt config.wordBits (r.stop - r.start + r.step + if 0 < r.step then -1 else 1) ∧
    IsMachineInt config.wordBits r.count

/-- All integers of the range are small ints. -/
def MpRange.AllSmall : Prop := ∀ x ∈ r.elements, config.SmallIntFits x

/-- The step from the last integer is to a machine word. -/
def MpRange.LastStepFits : Prop :=
  ∀ last ∈ r.elements.getLast?, IsMachineInt config.wordBits (last + r.step)

/-- No sum or product for a slice of the range leaves the machine words. -/
def MpRange.SliceFits (slice : SliceObj) : Prop :=
  (slice.stepValue < 0 → ∀ stop ∈ slice.stop, IsMachineInt config.wordBits (stop + 1)) ∧
    IsMachineInt config.wordBits (r.start + slice.first r.count * r.step) ∧
    IsMachineInt config.wordBits (r.start + r.step *
      if 0 < slice.stepValue then max (slice.first r.count) (slice.limit r.count)
      else min (slice.first r.count) (slice.limit r.count)) ∧
    IsMachineInt config.wordBits (slice.stepValue * r.step)

end Properties

/-! ## Lengths -/

section Quotients

variable {a b moved base : Int}

theorem max_tdiv (positive : 0 < b) : max 0 (a.tdiv b) = ((a / b).toNat : Int) := by
  by_cases negative : a < 0
  · have opposite : 0 ≤ (-a).tdiv b := Int.tdiv_nonneg (by omega) positive.le
    have floor : a / b < 0 := Int.ediv_neg_of_neg_of_pos negative positive
    rw [Int.neg_tdiv] at opposite
    omega
  · rw [Int.tdiv_eq_ediv_of_nonneg (by omega)]
    omega

theorem max_tdiv_eq_iff (positive : 0 < b) (smaller : 2 * b ≤ base) (low : b ≤ a + base)
    (shift : moved = a ∨ moved = a - base ∧ base ≤ 2 * a ∨ moved = a + base ∧ 2 * a ≤ -base) :
    max 0 (moved.tdiv b) = ((a / b).toNat : Int) ↔ moved = a := by
  rw [max_tdiv positive]
  constructor
  · intro same
    rcases shift with isSame | ⟨isLess, high⟩ | ⟨isMore, negative⟩
    · exact isSame
    · have next : (moved + b) / b ≤ a / b := Int.ediv_le_ediv positive (by omega)
      rw [Int.add_ediv_of_dvd_right (dvd_refl b), Int.ediv_self positive.ne'] at next
      have atLeast : b / b ≤ a / b := Int.ediv_le_ediv positive (by omega)
      rw [Int.ediv_self positive.ne'] at atLeast
      omega
    · have atLeast : b / b ≤ moved / b := Int.ediv_le_ediv positive (by omega)
      rw [Int.ediv_self positive.ne'] at atLeast
      have floor : a / b < 0 := Int.ediv_neg_of_neg_of_pos (by omega) positive
      omega
  · intro same
    rw [same]

theorem tdiv_bounds (positive : 0 < b) : -|a| ≤ a.tdiv b ∧ a.tdiv b ≤ |a| := by
  by_cases negative : a < 0
  · have opposite : 0 ≤ (-a).tdiv b := Int.tdiv_nonneg (by omega) positive.le
    have atMost : (-a).tdiv b ≤ -a := Int.tdiv_le_self b (by omega)
    rw [Int.neg_tdiv] at opposite atMost
    rw [abs_of_neg negative]
    omega
  · have nonneg : 0 ≤ a.tdiv b := Int.tdiv_nonneg (by omega) positive.le
    have atMost : a.tdiv b ≤ a := Int.tdiv_le_self b (by omega)
    rw [abs_of_nonneg (by omega)]
    omega

end Quotients

section Words

variable {config : NumConfig} {x : Int}

theorem wordBase_half (config : NumConfig) :
    ((2 ^ config.wordBits : Nat) : Int) = 2 ^ config.wordBits ∧
      ∃ half : Int, (2 : Int) ^ config.wordBits = 2 * half := by
  refine ⟨by push_cast; rfl, 2 ^ (config.wordBits - 1), ?_⟩
  have large := config.large.1
  rw [← pow_succ', Nat.sub_add_cancel (by omega)]

theorem word_isMachineInt (config : NumConfig) (x : Int) :
    IsMachineInt config.wordBits (config.word x) := by
  have positive : 0 < 2 ^ config.wordBits := Nat.two_pow_pos _
  have lower := @Int.le_bmod x _ positive
  have upper := @Int.bmod_lt x _ positive
  obtain ⟨cast, half, isHalf⟩ := wordBase_half config
  rw [cast] at lower upper
  exact ⟨by rw [NumConfig.word]; omega, by rw [NumConfig.word]; omega⟩

theorem word_shift (lower : -3 * 2 ^ config.wordBits ≤ 2 * x)
    (upper : 2 * x < 3 * 2 ^ config.wordBits) :
    config.word x = x ∨ config.word x = x - 2 ^ config.wordBits ∨
      config.word x = x + 2 ^ config.wordBits := by
  have room := wordRoom config
  obtain ⟨isLower, isUpper⟩ := word_isMachineInt config x
  have same : (2 ^ config.wordBits : Int) ∣ x - config.word x :=
    Int.ModEq.dvd (NumConfig.word_emod x)
  obtain ⟨turns, isTurns⟩ := same
  have notMore : turns ≤ 1 := by
    by_contra more
    have twice : 2 ^ config.wordBits * 2 ≤ 2 ^ config.wordBits * turns :=
      mul_le_mul_of_nonneg_left (by omega) (by omega)
    omega
  have notLess : -1 ≤ turns := by
    by_contra less
    have twice : 2 ^ config.wordBits * turns ≤ 2 ^ config.wordBits * (-2) :=
      mul_le_mul_of_nonneg_left (by omega) (by omega)
    omega
  obtain rfl | rfl | rfl : turns = -1 ∨ turns = 0 ∨ turns = 1 := by omega
  · omega
  · omega
  · omega

theorem word_eq_iff : config.word x = x ↔ IsMachineInt config.wordBits x := by
  constructor
  · intro same
    have isWord := word_isMachineInt config x
    rwa [same] at isWord
  · intro isWord
    exact NumConfig.word_eq_of isWord.1 isWord.2

/-- The word of a small int keeps the integer if and only if it is one. -/
theorem newSmallInt_eq_iff : config.newSmallInt x = x ↔ config.SmallIntFits x := by
  constructor
  · intro same
    have positive : 0 < 2 ^ (config.smallBits + 1) := Nat.two_pow_pos _
    have lower := @Int.le_bmod x _ positive
    have upper := @Int.bmod_lt x _ positive
    have cast : ((2 ^ (config.smallBits + 1) : Nat) : Int) = 2 * 2 ^ config.smallBits := by
      push_cast
      ring
    rw [cast] at lower upper
    rw [NumConfig.newSmallInt] at same
    rw [NumConfig.fits_iff]
    omega
  · exact NumConfig.newSmallInt_eq

theorem isMachineInt_of_small (fits : config.SmallIntFits x) : IsMachineInt config.wordBits x := by
  have room := @NumConfig.room config
  obtain ⟨lower, upper⟩ := NumConfig.fits_iff.mp fits
  exact ⟨by omega, by omega⟩

end Words

section Lengths

variable {config : NumConfig} {r : MpRange}

/-- The parts of a range are machine words, and its step is not zero. -/
structure MpRange.IsWords (r : MpRange) (config : NumConfig) : Prop where
  start : IsMachineInt config.wordBits r.start
  stop : IsMachineInt config.wordBits r.stop
  step : IsMachineInt config.wordBits r.step
  nonzero : r.step ≠ 0

theorem getInt_ok {i word : Int} (got : getInt config i = .ok word) :
    word = i ∧ IsMachineInt config.wordBits i := by
  rw [getInt] at got
  split_ifs at got with isWord
  cases got
  exact ⟨rfl, isWord⟩

theorem ok_of_bind {ε α β : Type} {x : Except ε α} {f : α → Except ε β} {y : β}
    (ended : x >>= f = .ok y) : ∃ a, x = .ok a ∧ f a = .ok y := by
  cases x with
  | error e => cases ended
  | ok a => exact ⟨a, rfl, ended⟩

theorem MpRange.Accepted.isWords (accepted : r.Accepted config) : r.IsWords config := by
  have room := wordRoom config
  have zero : IsMachineInt config.wordBits 0 := ⟨by omega, by omega⟩
  have one : IsMachineInt config.wordBits 1 := ⟨by omega, by omega⟩
  obtain ⟨args, made⟩ := accepted
  rcases args with _ | ⟨first, _ | ⟨second, _ | ⟨third, _ | ⟨fourth, rest⟩⟩⟩⟩
  · cases made
  · obtain ⟨stop, isStop, isRange⟩ := ok_of_bind made
    obtain ⟨rfl, stopWord⟩ := getInt_ok isStop
    cases isRange
    exact ⟨zero, stopWord, one, one_ne_zero⟩
  · obtain ⟨start, isStart, madeRest⟩ := ok_of_bind made
    obtain ⟨stop, isStop, isRange⟩ := ok_of_bind madeRest
    obtain ⟨rfl, startWord⟩ := getInt_ok isStart
    obtain ⟨rfl, stopWord⟩ := getInt_ok isStop
    cases isRange
    exact ⟨startWord, stopWord, one, one_ne_zero⟩
  · obtain ⟨start, isStart, madeRest⟩ := ok_of_bind made
    obtain ⟨stop, isStop, madeStep⟩ := ok_of_bind madeRest
    obtain ⟨step, isStep, isRange⟩ := ok_of_bind madeStep
    obtain ⟨rfl, startWord⟩ := getInt_ok isStart
    obtain ⟨rfl, stopWord⟩ := getInt_ok isStop
    obtain ⟨rfl, stepWord⟩ := getInt_ok isStep
    split_ifs at isRange with isZero
    cases isRange
    exact ⟨startWord, stopWord, stepWord, isZero⟩
  · cases made

theorem MpRange.IsWords.accepted (words : r.IsWords config) : r.Accepted config := by
  refine ⟨[r.start, r.stop, r.step], ?_⟩
  simp only [rangeMakeNew, getInt, if_pos words.start, if_pos words.stop, if_pos words.step, bind,
    Except.bind, if_neg words.nonzero]

theorem length_elements : r.elements.length = r.count := length_progression

theorem rangeLen_eq : rangeLen config r =
    let len := (config.word (r.stop - r.start + r.step + if 0 < r.step then -1 else 1)).tdiv r.step
    if IsMachineInt config.wordBits len then some (max 0 len) else none := by
  have sums : (if r.step > 0 then config.word (config.word (r.stop - r.start + r.step) - 1)
      else config.word (config.word (r.stop - r.start + r.step) + 1)) =
      config.word (r.stop - r.start + r.step + if 0 < r.step then -1 else 1) := by
    simp only [NumConfig.word, gt_iff_lt]
    split_ifs
    · rw [Int.bmod_sub_bmod, Int.sub_eq_add_neg]
    · rw [Int.bmod_add_bmod]
  simp only [rangeLen, sums]
  congr 2
  split_ifs <;> omega

/-- The distance that the number of integers is a quotient of. -/
def MpRange.distance (r : MpRange) : Int :=
  r.stop - r.start + r.step + if 0 < r.step then -1 else 1

/-- The length as a quotient of a distance that may have been moved by the base of the words, and the
number of integers as that of the distance itself, in both directions. -/
theorem rangeLen_quotient (words : r.IsWords config) : ∃ a b moved : Int, 0 < b ∧
    2 * b ≤ 2 ^ config.wordBits ∧ b ≤ a + 2 ^ config.wordBits ∧
    (moved = a ∨ moved = a - 2 ^ config.wordBits ∧ 2 ^ config.wordBits ≤ 2 * a ∨
      moved = a + 2 ^ config.wordBits ∧ 2 * a ≤ -2 ^ config.wordBits) ∧
    rangeLen config r =
      (if IsMachineInt config.wordBits (moved.tdiv b) then some (max 0 (moved.tdiv b)) else none) ∧
    r.count = (a / b).toNat ∧ 2 * |moved| ≤ 2 ^ config.wordBits ∧
    (IsMachineInt config.wordBits r.distance ↔ moved = a) ∧
    (0 < r.step → b = r.step ∧ 2 * moved < 2 ^ config.wordBits) ∧ (r.step < 0 → b = -r.step) := by
  have room := wordRoom config
  obtain ⟨⟨startLower, startUpper⟩, ⟨stopLower, stopUpper⟩, ⟨stepLower, stepUpper⟩, nonzero⟩ := words
  rw [rangeLen_eq, ← @word_eq_iff config r.distance, MpRange.distance]
  have shift := @word_shift config (r.stop - r.start + r.step + if 0 < r.step then -1 else 1)
    (by split_ifs <;> omega) (by split_ifs <;> omega)
  obtain ⟨wordLower, wordUpper⟩ :=
    word_isMachineInt config (r.stop - r.start + r.step + if 0 < r.step then -1 else 1)
  generalize config.word (r.stop - r.start + r.step + if 0 < r.step then -1 else 1) = moved at *
  have size : 2 * |moved| ≤ 2 ^ config.wordBits := by
    rcases abs_cases moved with ⟨isAbs, -⟩ | ⟨isAbs, -⟩ <;> omega
  rcases lt_or_gt_of_ne nonzero with down | up
  · have notUp : ¬ 0 < r.step := by omega
    simp only [if_neg notUp] at shift ⊢
    refine ⟨r.start - r.stop - r.step - 1, -r.step, -moved, by omega, by omega, by omega, by omega, ?_,
      by rw [MpRange.count, stepsTo, if_neg notUp], by rwa [abs_neg], by omega, by omega, by omega⟩
    rw [Int.neg_tdiv_neg]
  · simp only [if_pos up] at shift ⊢
    exact ⟨r.stop - r.start + r.step - 1, r.step, moved, up, by omega, by omega, by omega, rfl,
      by rw [MpRange.count, stepsTo, if_pos up], size, by omega, by omega, by omega⟩

theorem rangeLen_iff (words : r.IsWords config) :
    rangeLen config r = some (r.count : Int) ↔ r.LengthFits config := by
  have room := wordRoom config
  obtain ⟨a, b, moved, positive, smaller, low, shifted, isLen, isCount, size, fits, -⟩ :=
    rangeLen_quotient words
  have right := max_tdiv_eq_iff positive smaller low shifted
  have bounds := @tdiv_bounds moved b positive
  rw [MpRange.LengthFits, ← MpRange.distance, fits, ← right, isLen, isCount]
  constructor
  · intro isSome
    split_ifs at isSome with isWord
    rw [some.injEq] at isSome
    refine ⟨isSome, ?_⟩
    rw [← isSome]
    exact ⟨by have := isWord.1; omega, by have := isWord.2; omega⟩
  · rintro ⟨isSame, isWord⟩
    have lenWord : IsMachineInt config.wordBits (moved.tdiv b) :=
      ⟨by omega, by have := isWord.2; omega⟩
    rw [if_pos lenWord, isSame]

theorem rangeLen_some {len : Int} (isLen : rangeLen config r = some len) :
    0 ≤ len ∧ IsMachineInt config.wordBits len := by
  have room := wordRoom config
  rw [rangeLen_eq] at isLen
  generalize (config.word _).tdiv r.step = quotient at isLen
  simp only at isLen
  split_ifs at isLen with isWord
  rw [some.injEq] at isLen
  obtain ⟨lower, upper⟩ := isWord
  rw [← isLen]
  exact ⟨le_max_left _ _, by omega, by omega⟩

theorem lengthRight_iff (words : r.IsWords config) :
    r.LengthRight config ↔ r.LengthFits config ∧ config.SmallIntFits r.count := by
  rw [MpRange.LengthRight, rangeLen_iff words]
  constructor
  · rintro ⟨fits, isObject⟩
    rw [rangeUnaryOp, (rangeLen_iff words).mpr fits, map_some, some.injEq] at isObject
    exact ⟨fits, newSmallInt_eq_iff.mp isObject⟩
  · rintro ⟨fits, small⟩
    refine ⟨fits, ?_⟩
    rw [rangeUnaryOp, (rangeLen_iff words).mpr fits, map_some, newSmallInt_eq_iff.mpr small]

end Lengths

/-! ## Iteration -/

section Iteration

variable {config : NumConfig} {r : MpRange}

theorem rangeItIternext_eq (nonzero : r.step ≠ 0) : rangeItIternext config r =
    if Before r.step r.start r.stop then
      some (config.newSmallInt r.start, { r with start := config.word (r.start + r.step) })
    else none := by
  have same : (r.step > 0 ∧ r.start < r.stop ∨ r.step < 0 ∧ r.start > r.stop) ↔
      Before r.step r.start r.stop := by
    rcases lt_or_gt_of_ne nonzero with down | up
    · rw [before_down down]
      omega
    · rw [before_up up]
      omega
  simp only [rangeItIternext, same]

/-- A step that leaves the machine words comes back to before the stop. -/
theorem before_of_wraps (words : r.IsWords config) (before : Before r.step r.start r.stop)
    (wraps : ¬ IsMachineInt config.wordBits (r.start + r.step)) :
    Before r.step (config.word (r.start + r.step)) r.stop := by
  obtain ⟨⟨startLower, startUpper⟩, ⟨stopLower, stopUpper⟩, ⟨stepLower, stepUpper⟩, nonzero⟩ := words
  have isWord := word_isMachineInt config (r.start + r.step)
  have moved := word_eq_iff.not.mpr wraps
  have shift := @word_shift config (r.start + r.step) (by omega) (by omega)
  rw [IsMachineInt] at isWord
  rcases lt_or_gt_of_ne nonzero with down | up
  · rw [before_down down] at before ⊢
    omega
  · rw [before_up up] at before ⊢
    omega

theorem isMachineInt_of_before (words : r.IsWords config)
    (again : Before r.step (r.start + r.step) r.stop) :
    IsMachineInt config.wordBits (r.start + r.step) := by
  obtain ⟨⟨startLower, startUpper⟩, ⟨stopLower, stopUpper⟩, -, nonzero⟩ := words
  rcases lt_or_gt_of_ne nonzero with down | up
  · rw [before_down down] at again
    exact ⟨by omega, by omega⟩
  · rw [before_up up] at again
    exact ⟨by omega, by omega⟩

theorem allSmall_iff (nonzero : r.step ≠ 0) (before : Before r.step r.start r.stop) :
    r.AllSmall config ↔ config.SmallIntFits r.start ∧
      MpRange.AllSmall config ⟨r.start + r.step, r.stop, r.step⟩ := by
  simp only [MpRange.AllSmall, MpRange.elements, rangeOf_of_before nonzero before,
    List.forall_mem_cons]

theorem lastStepFits_iff (words : r.IsWords config) (before : Before r.step r.start r.stop) :
    r.LastStepFits config ↔ IsMachineInt config.wordBits (r.start + r.step) ∧
      MpRange.LastStepFits config ⟨r.start + r.step, r.stop, r.step⟩ := by
  have nonzero := words.nonzero
  simp only [MpRange.LastStepFits, MpRange.elements, rangeOf_of_before nonzero before]
  by_cases again : Before r.step (r.start + r.step) r.stop
  · rw [rangeOf_of_before nonzero again, List.getLast?_cons_cons]
    exact ⟨fun fits => ⟨isMachineInt_of_before words again, fits⟩, fun fits => fits.2⟩
  · rw [rangeOf_of_not_before nonzero again]
    simp

theorem drain_of_fits (calls : Nat) (words : r.IsWords config) (enough : r.count < calls)
    (small : r.AllSmall config) (last : r.LastStepFits config) :
    drain config calls r = some r.elements := by
  have nonzero := words.nonzero
  induction calls generalizing r with
  | zero => omega
  | succ calls ih =>
    rw [drain, rangeItIternext_eq nonzero, MpRange.elements]
    by_cases before : Before r.step r.start r.stop
    · obtain ⟨firstSmall, restSmall⟩ := (allSmall_iff nonzero before).mp small
      obtain ⟨isWord, restLast⟩ := (lastStepFits_iff words before).mp last
      rw [MpRange.count, stepsTo_of_before nonzero before] at enough
      have rest := @ih ⟨r.start + r.step, r.stop, r.step⟩
        ⟨isWord, words.stop, words.step, nonzero⟩ (by simp only [MpRange.count]; omega) restSmall
        restLast nonzero
      rw [if_pos before, elim_some, newSmallInt_eq_iff.mpr firstSmall,
        word_eq_iff.mpr isWord, rest, rangeOf_of_before nonzero before]
      rfl
    · rw [if_neg before, rangeOf_of_not_before nonzero before]
      rfl

theorem drain_ne_nil (calls : Nat) (nonzero : r.step ≠ 0) {start : Int}
    (before : Before r.step start r.stop) : drain config calls { r with start := start } ≠ some [] := by
  intro drained
  cases calls with
  | zero => cases drained
  | succ calls =>
    have next := @rangeItIternext_eq config { r with start := start } nonzero
    rw [if_pos before] at next
    rw [drain, next, elim_some, map_eq_some_iff] at drained
    obtain ⟨rest, -, isNil⟩ := drained
    cases isNil

theorem fits_of_drain (calls : Nat) (words : r.IsWords config)
    (drained : drain config calls r = some r.elements) :
    r.AllSmall config ∧ r.LastStepFits config := by
  have nonzero := words.nonzero
  induction calls generalizing r with
  | zero => cases drained
  | succ calls ih =>
    rw [drain, rangeItIternext_eq nonzero, MpRange.elements] at drained
    by_cases before : Before r.step r.start r.stop
    · rw [allSmall_iff nonzero before, lastStepFits_iff words before]
      rw [if_pos before, elim_some, map_eq_some_iff,
        rangeOf_of_before nonzero before] at drained
      obtain ⟨rest, isRest, isWhole⟩ := drained
      obtain ⟨isFirst, rfl⟩ := List.cons.inj isWhole
      have isWord : IsMachineInt config.wordBits (r.start + r.step) := by
        by_contra wraps
        have ended : ¬ Before r.step (r.start + r.step) r.stop :=
          fun again => wraps (isMachineInt_of_before words again)
        rw [rangeOf_of_not_before nonzero ended] at isRest
        exact drain_ne_nil calls nonzero (before_of_wraps words before wraps) isRest
      rw [word_eq_iff.mpr isWord] at isRest
      obtain ⟨restSmall, restLast⟩ := @ih ⟨r.start + r.step, r.stop, r.step⟩
        ⟨isWord, words.stop, words.step, nonzero⟩ isRest nonzero
      exact ⟨⟨newSmallInt_eq_iff.mp isFirst, restSmall⟩, isWord, restLast⟩
    · constructor
      · intro x isIn
        rw [MpRange.elements, rangeOf_of_not_before nonzero before] at isIn
        cases isIn
      · intro last isLast
        rw [MpRange.elements, rangeOf_of_not_before nonzero before] at isLast
        cases isLast

/-- The iterator is right if and only if every integer is a small int and the step from the last one
does not wrap around. -/
theorem iterates_iff (words : r.IsWords config) :
    r.Iterates config ↔ r.AllSmall config ∧ r.LastStepFits config := by
  constructor
  · rintro ⟨calls, drained⟩
    exact fits_of_drain calls words drained
  · rintro ⟨small, last⟩
    exact ⟨r.count + 1, drain_of_fits _ words (Nat.lt_succ_self _) small last⟩

end Iteration

/-! ## Indices -/

section Indices

variable {config : NumConfig} {r : MpRange} {i : Int}

theorem getIndex_eq {len : Nat} {index : IndexObj} (isValue : index.value = some i)
    (isWord : IsMachineInt config.wordBits i) : getIndex config.wordBits len index =
      if 0 ≤ (if i < 0 then i + len else i) ∧ (if i < 0 then i + len else i) < len then
        .ok (if i < 0 then i + len else i).toNat
      else .error .indexError := by
  have found : getIndex config.wordBits len index =
      if (if i < 0 then i + len else i) < 0 ∨ (if i < 0 then i + len else i) ≥ len then
        .error .indexError
      else .ok (if i < 0 then i + len else i).toNat := by
    cases index with
    | small value =>
      cases isValue
      rfl
    | object word value =>
      cases isValue
      have got : objGetInt config.wordBits i = .ok i := if_pos isWord
      simp only [getIndex, got]
      rfl
  rw [found]
  generalize (if i < 0 then i + (len : Int) else i) = place
  by_cases inside : 0 ≤ place ∧ place < len
  · rw [if_pos inside, if_neg (by omega)]
  · rw [if_neg inside, if_pos (by omega)]

theorem isMachineInt_of_mem (words : r.IsWords config) {x : Int} (isIn : x ∈ r.elements) :
    IsMachineInt config.wordBits x := by
  obtain ⟨⟨startLower, startUpper⟩, ⟨stopLower, stopUpper⟩, -, nonzero⟩ := words
  obtain ⟨place, rfl, before⟩ := (mem_rangeOf nonzero).mp isIn
  rcases lt_or_gt_of_ne nonzero with down | up
  · rw [before_down down] at before
    have falls := mul_nonpos_of_nonneg_of_nonpos (Int.natCast_nonneg place) down.le
    exact ⟨by omega, by omega⟩
  · rw [before_up up] at before
    have rises := mul_nonneg (Int.natCast_nonneg place) up.le
    exact ⟨by omega, by omega⟩

theorem rangeSubscr_eq {len : Nat} {index : IndexObj} (isLen : rangeLen config r = some (len : Int))
    (isValue : index.value = some i) (isWord : IsMachineInt config.wordBits i) :
    rangeSubscr config r index = some (
      if 0 ≤ (if i < 0 then i + len else i) ∧ (if i < 0 then i + len else i) < len then
        .ok (config.newSmallInt (config.word (r.start + (if i < 0 then i + len else i) * r.step)))
      else .error .indexError) := by
  rw [rangeSubscr, isLen, bind_eq_bind, bind_some, Int.toNat_natCast,
    getIndex_eq isValue isWord]
  generalize (if i < 0 then i + (len : Int) else i) = place
  split_ifs with inside
  · rw [Except.map, Int.toNat_of_nonneg inside.1]
  · rfl

theorem elementAt_eq : r.elementAt i =
    if 0 ≤ (if i < 0 then i + r.count else i) ∧ (if i < 0 then i + r.count else i) < r.count then
      .ok (r.start + (if i < 0 then i + r.count else i) * r.step)
    else .error .indexError := by
  simp only [MpRange.elementAt]
  generalize (if i < 0 then i + (r.count : Int) else i) = place
  by_cases positive : 0 ≤ place
  · rw [if_pos positive]
    by_cases inside : place < r.count
    · have isThere : r.elements[place.toNat]? = some (r.start + place * r.step) := by
        rw [MpRange.elements, rangeOf, getElem?_progression (by rw [MpRange.count] at inside; omega),
          Int.toNat_of_nonneg positive]
      rw [if_pos ⟨positive, inside⟩, isThere]
      rfl
    · have isBehind : r.elements[place.toNat]? = none := by
        rw [List.getElem?_eq_none_iff, length_elements]
        omega
      rw [if_neg (by omega), isBehind]
      rfl
  · rw [if_neg positive, if_neg (by omega)]

/-- The index is right if and only if the length is, and every integer is a small int. -/
theorem indexRight_iff (words : r.IsWords config) :
    r.IndexRight config ↔ r.LengthFits config ∧ r.AllSmall config := by
  have room := wordRoom config
  have place_mem {place : Int} (positive : 0 ≤ place) (inside : place < r.count) :
      r.start + place * r.step ∈ r.elements := by
    refine mem_progression.mpr ⟨place.toNat, by rw [MpRange.count] at inside; omega, ?_⟩
    rw [Int.toNat_of_nonneg positive]
  constructor
  · intro right
    obtain ⟨len, isLen⟩ : ∃ len : Nat, rangeLen config r = some (len : Int) := by
      have some_ := right (.small 0) 0 rfl ⟨by omega, by omega⟩
      rw [rangeSubscr, bind_eq_bind, bind_eq_some_iff] at some_
      obtain ⟨len, isLen, -⟩ := some_
      exact ⟨len.toNat, by rw [isLen, Int.toNat_of_nonneg (rangeLen_some isLen).1]⟩
    obtain ⟨-, lenLower, lenUpper⟩ := rangeLen_some isLen
    -- At the lesser one of the two lengths only one of the indices would be refused.
    have isCount : len = r.count := by
      by_contra differs
      by_cases shorter : len < r.count
      · have notNegative : ¬ (len : Int) < 0 := by omega
        have isSame := right (.small len) len rfl ⟨by omega, by omega⟩
        rw [rangeSubscr_eq isLen rfl ⟨by omega, by omega⟩, elementAt_eq] at isSame
        simp only [if_neg notNegative, lt_irrefl, and_false, if_false] at isSame
        rw [if_pos (by omega)] at isSame
        cases isSame
      · have notNegative : ¬ (r.count : Int) < 0 := by omega
        have isSame := right (.small r.count) r.count rfl ⟨by omega, by omega⟩
        rw [rangeSubscr_eq isLen rfl ⟨by omega, by omega⟩, elementAt_eq] at isSame
        simp only [if_neg notNegative, lt_irrefl, and_false, if_false] at isSame
        rw [if_pos (by omega)] at isSame
        cases isSame
    subst isCount
    refine ⟨(rangeLen_iff words).mp isLen, ?_⟩
    intro x isIn
    have isWord := isMachineInt_of_mem words isIn
    obtain ⟨place, inside, isX⟩ := mem_progression.mp isIn
    have placeInside : place < r.count := inside
    have placeWord : IsMachineInt config.wordBits place := ⟨by omega, by omega⟩
    have notNegative : ¬ (place : Int) < 0 := by omega
    have isPlace : 0 ≤ (place : Int) ∧ (place : Int) < r.count := by omega
    have isSame := right (.small place) place rfl placeWord
    rw [rangeSubscr_eq isLen rfl placeWord, elementAt_eq] at isSame
    simp only [if_neg notNegative, if_pos isPlace, isX, word_eq_iff.mpr isWord] at isSame
    exact newSmallInt_eq_iff.mp (Except.ok.inj (some.inj isSame))
  · rintro ⟨fits, small⟩ index i isValue isWord
    rw [rangeSubscr_eq ((rangeLen_iff words).mpr fits) isValue isWord, elementAt_eq]
    generalize (if i < 0 then i + (r.count : Int) else i) = place
    split_ifs with inside
    · have isIn := place_mem inside.1 inside.2
      rw [word_eq_iff.mpr (isMachineInt_of_mem words isIn), newSmallInt_eq_iff.mpr (small _ isIn)]
    · rfl

end Indices

/-! ## Equality -/

section Equality

variable {config : NumConfig} {r other : MpRange}

theorem elements_eq_iff : r.elements = other.elements ↔ r.count = other.count ∧
    (r.count = 0 ∨ r.start = other.start ∧ (r.count = 1 ∨ r.step = other.step)) :=
  progression_eq_iff

/-- The comparison of two ranges with the lengths that the code finds. -/
theorem rangeBinaryOp_eq {len otherLen : Nat} (isLen : rangeLen config r = some (len : Int))
    (isOther : rangeLen config other = some (otherLen : Int)) :
    rangeBinaryOp config r other = some (decide (len = otherLen ∧
      (len = 0 ∨ r.start = other.start ∧ (len = 1 ∨ r.step = other.step)))) := by
  rw [rangeBinaryOp, isLen, isOther]
  simp

theorem equalRight_of_fits (words : r.IsWords config) (otherWords : other.IsWords config)
    (fits : r.LengthFits config) (otherFits : other.LengthFits config) :
    r.EqualRight config other := by
  rw [MpRange.EqualRight, rangeBinaryOp_eq ((rangeLen_iff words).mpr fits)
    ((rangeLen_iff otherWords).mpr otherFits), some.injEq, decide_eq_decide, elements_eq_iff]

/-- The range of the first integers of a range. -/
def MpRange.shortened (r : MpRange) (count : Nat) : MpRange :=
  ⟨r.start, r.start + (count - 1) * r.step + if 0 < r.step then 1 else -1, r.step⟩

theorem count_shortened (nonzero : r.step ≠ 0) (count : Nat) :
    (r.shortened count).count = count := by
  have inside (i : Nat) : i < (r.shortened count).count ↔ i < count := by
    rw [MpRange.count, lt_stepsTo_iff (show (r.shortened count).step ≠ 0 from nonzero)]
    simp only [MpRange.shortened]
    rcases lt_or_gt_of_ne nonzero with down | up
    · have notUp : ¬ 0 < r.step := by omega
      rw [before_down down, if_neg notUp]
      constructor
      · intro before
        by_contra behind
        have falls : (i : Int) * r.step ≤ count * r.step :=
          mul_le_mul_of_nonpos_right (by omega) down.le
        rw [Int.sub_mul] at before
        omega
      · intro isLess
        have falls : ((count : Int) - 1) * r.step ≤ i * r.step :=
          mul_le_mul_of_nonpos_right (by omega) down.le
        omega
    · rw [before_up up, if_pos up]
      constructor
      · intro before
        by_contra behind
        have rises : (count : Int) * r.step ≤ i * r.step :=
          mul_le_mul_of_nonneg_right (by omega) up.le
        rw [Int.sub_mul] at before
        omega
      · intro isLess
        have rises : (i : Int) * r.step ≤ (count - 1) * r.step :=
          mul_le_mul_of_nonneg_right (by omega) up.le
        omega
  have atMost := (inside count).not
  have atLeast := (inside (r.shortened count).count).not
  omega

theorem shortened_words (words : r.IsWords config) {count : Nat} (some_ : 0 < count)
    (fewer : count < r.count) : (r.shortened count).IsWords config := by
  refine ⟨words.start, ?_, words.step, words.nonzero⟩
  obtain ⟨startLower, startUpper⟩ := words.start
  obtain ⟨stopLower, stopUpper⟩ := words.stop
  have before := (@lt_stepsTo_iff r.start r.stop r.step (count - 1) words.nonzero).mp
    (lt_of_le_of_lt (Nat.sub_le _ _) fewer)
  have steps := Int.natCast_nonneg (count - 1)
  rw [Nat.cast_sub (by omega), Nat.cast_one] at before steps
  simp only [MpRange.shortened]
  rcases lt_or_gt_of_ne words.nonzero with down | up
  · have falls := mul_nonpos_of_nonneg_of_nonpos steps down.le
    rw [before_down down] at before
    rw [if_neg (by omega)]
    exact ⟨by omega, by omega⟩
  · have rises := mul_nonneg steps up.le
    rw [before_up up] at before
    rw [if_pos up]
    exact ⟨by omega, by omega⟩

theorem distance_shortened {count : Nat} : (r.shortened count).distance = count * r.step := by
  rw [MpRange.distance]
  by_cases up : 0 < r.step
  · rw [if_pos (show 0 < (r.shortened count).step from up)]
    simp only [MpRange.shortened, if_pos up]
    ring
  · rw [if_neg (show ¬ 0 < (r.shortened count).step from up)]
    simp only [MpRange.shortened, if_neg up]
    ring

/-- A wrong length of a range with integers is the number of the first ones of them. -/
theorem shortened_of_wrong (words : r.IsWords config) {len : Nat}
    (isLen : rangeLen config r = some (len : Int)) (some_ : 0 < r.count) (wrong : len ≠ r.count) :
    len < r.count ∧ IsMachineInt config.wordBits (len * r.step) := by
  obtain ⟨a, b, moved, positive, smaller, low, shifted, isQuotient, isCount, size, -, upward,
    downward⟩ := rangeLen_quotient words
  rw [isQuotient] at isLen
  split_ifs at isLen with isWord
  rw [some.injEq, max_tdiv positive, Nat.cast_inj] at isLen
  have nonneg : 0 ≤ a := by
    by_contra negative
    have floor : a / b < 0 := Int.ediv_neg_of_neg_of_pos (by omega) positive
    omega
  have less : moved = a - 2 ^ config.wordBits ∧ 2 ^ config.wordBits ≤ 2 * a := by
    rcases shifted with isSame | isLess | isMore
    · exact absurd (by rw [← isLen, isCount, isSame]) wrong
    · exact isLess
    · omega
  have next : (moved + b) / b ≤ a / b := Int.ediv_le_ediv positive (by omega)
  rw [Int.add_ediv_of_dvd_right (dvd_refl b), Int.ediv_self positive.ne'] at next
  refine ⟨by omega, ?_⟩
  have room := wordRoom config
  have atMost : (len : Int) * b ≤ |moved| := by
    by_cases negative : moved / b < 0
    · obtain rfl : len = 0 := by omega
      rw [Nat.cast_zero, Int.zero_mul]
      exact abs_nonneg moved
    · have isFloor : (len : Int) = moved / b := by omega
      rw [isFloor]
      exact (Int.ediv_mul_le moved positive.ne').trans (le_abs_self moved)
  have steps : 0 ≤ (len : Int) * b := mul_nonneg (Int.natCast_nonneg len) positive.le
  rcases lt_or_gt_of_ne words.nonzero with down | up
  · rw [downward down, Int.mul_neg] at atMost steps
    exact ⟨by omega, by omega⟩
  · obtain ⟨isStep, below⟩ := upward up
    rw [isStep] at atMost steps
    refine ⟨by omega, ?_⟩
    rcases abs_cases moved with ⟨isAbs, -⟩ | ⟨isAbs, negative⟩
    · omega
    · obtain rfl : len = 0 := by
        have floor : moved / b < 0 := Int.ediv_neg_of_neg_of_pos negative positive
        omega
      omega

/-- A range whose length is wrong is not compared right with some range whose length is not. -/
theorem fits_of_equalRight (words : r.IsWords config)
    (right : ∀ other : MpRange, other.IsWords config → other.LengthFits config →
      r.EqualRight config other) : r.LengthFits config := by
  have room := wordRoom config
  -- A range without integers is compared first, which tells whether the length is zero.
  have emptyWords : MpRange.IsWords ⟨0, 0, 1⟩ config :=
    ⟨⟨by simp only; omega, by simp only; omega⟩, ⟨by simp only; omega, by simp only; omega⟩,
      ⟨by simp only; omega, by simp only; omega⟩, one_ne_zero⟩
  have emptyCount : MpRange.count ⟨0, 0, 1⟩ = 0 := by decide
  have emptyFits : MpRange.LengthFits config ⟨0, 0, 1⟩ := by
    rw [MpRange.LengthFits, emptyCount]
    exact ⟨⟨by simp, by simp⟩, ⟨by simp, by simp⟩⟩
  have emptyRight := right _ emptyWords emptyFits
  have emptyLen := (rangeLen_iff emptyWords).mpr emptyFits
  rw [emptyCount] at emptyLen
  obtain ⟨len, isLen⟩ : ∃ len : Nat, rangeLen config r = some (len : Int) := by
    rw [MpRange.EqualRight, rangeBinaryOp, bind_eq_bind, bind_eq_some_iff] at emptyRight
    obtain ⟨len, isLen, -⟩ := emptyRight
    exact ⟨len.toNat, by rw [isLen, Int.toNat_of_nonneg (rangeLen_some isLen).1]⟩
  rw [MpRange.EqualRight, rangeBinaryOp_eq isLen emptyLen, some.injEq, decide_eq_decide,
    elements_eq_iff, emptyCount] at emptyRight
  rw [← rangeLen_iff words, isLen, some.injEq, Nat.cast_inj]
  by_contra wrong
  -- Otherwise the range of the first integers has the length that is wrong.
  have some_ : 0 < r.count := by omega
  have lenPositive : 0 < len := by omega
  obtain ⟨fewer, isWord⟩ := shortened_of_wrong words isLen some_ wrong
  have shortWords := shortened_words words lenPositive fewer
  have shortCount := count_shortened words.nonzero len
  have shortFits : (r.shortened len).LengthFits config := by
    rw [MpRange.LengthFits, ← MpRange.distance, distance_shortened, shortCount]
    exact ⟨isWord, (rangeLen_some isLen).2⟩
  have shortLen := (rangeLen_iff shortWords).mpr shortFits
  rw [shortCount] at shortLen
  have shortRight := right _ shortWords shortFits
  rw [MpRange.EqualRight, rangeBinaryOp_eq isLen shortLen, some.injEq, decide_eq_decide,
    elements_eq_iff, shortCount] at shortRight
  have same := shortRight.mp ⟨rfl, .inr ⟨rfl, .inr rfl⟩⟩
  exact wrong same.1.symm

end Equality

/-! ## Slices -/

section Slices

variable {config : NumConfig} {r : MpRange} {slice : SliceObj}

theorem selected_elements (words : r.IsWords config) (nonzero : slice.stepValue ≠ 0) {stop : Int}
    (same : ∀ i : Nat,
      Before slice.stepValue (slice.first r.count + i * slice.stepValue) (slice.limit r.count) ↔
        Before slice.stepValue (slice.first r.count + i * slice.stepValue) stop) :
    rangeOf (r.start + slice.first r.count * r.step) (r.start + stop * r.step)
        (slice.stepValue * r.step) =
      (slice.places r.count).map fun place => r.start + place * r.step := by
  rw [rangeOf_affine nonzero words.nonzero, SliceObj.places, rangeOf, rangeOf,
    stepsTo_congr nonzero nonzero same]

/-- A slice of a range whose length is right is right if its sums and products do not leave the
machine words. -/
theorem sliceRight_of_fits (words : r.IsWords config) (fits : r.LengthFits config)
    (sliceWords : slice.IsWords config) (sliceFits : r.SliceFits config slice) :
    r.SliceRight config slice := by
  have nonzero := sliceWords.nonzero
  have inMemory : 2 * (r.count : Int) < 2 ^ config.wordBits := fits.2.2
  obtain ⟨stopFits, startWord, stopWord, stepWord⟩ := sliceFits
  obtain ⟨stop, isBounds, upward, downward⟩ := mpSeqGetFastSliceIndexes_spec
    (wrappingSum_exact config) sliceWords inMemory stopFits
  have isLen := (rangeLen_iff words).mpr fits
  rw [MpRange.SliceRight, rangeSubscrSlice, isLen, bind_eq_bind, bind_some,
    Int.toNat_natCast, isBounds]
  refine ⟨_, rfl, ?_⟩
  rcases lt_or_gt_of_ne nonzero with down | up
  · have isStop := downward down
    have notUp : ¬ 0 < slice.stepValue := by omega
    rw [if_neg notUp, Int.mul_comm] at stopWord
    have product : config.word (config.word (r.start + stop * r.step) - r.step) =
        r.start + min (slice.first r.count) (slice.limit r.count) * r.step := by
      rw [NumConfig.word, NumConfig.word, Int.bmod_sub_bmod, ← NumConfig.word, isStop,
        ← word_eq_iff.mpr stopWord]
      congr 1
      ring
    simp only [if_pos down, product, word_eq_iff.mpr startWord, word_eq_iff.mpr stepWord]
    apply selected_elements words nonzero
    intro i
    have falls := mul_nonpos_of_nonneg_of_nonpos (Int.natCast_nonneg i) down.le
    rw [before_down down, before_down down]
    omega
  · have isStop := upward up
    have notDown : ¬ slice.stepValue < 0 := by omega
    rw [if_pos up, Int.mul_comm] at stopWord
    rw [← isStop] at stopWord
    simp only [if_neg notDown, word_eq_iff.mpr startWord, word_eq_iff.mpr stopWord,
      word_eq_iff.mpr stepWord]
    apply selected_elements words nonzero
    intro i
    have rises := mul_nonneg (Int.natCast_nonneg i) up.le
    rw [before_up up, before_up up]
    omega

end Slices

end MultiPython.Obj
