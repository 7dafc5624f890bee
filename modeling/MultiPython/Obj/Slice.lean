import MultiPython.Logic.Progression
import MultiPython.Num.Word
import MultiPython.Obj.List

/-!
# Extended slices

`py/sequence.c`: the ends that a slice selects, with a step up or down, and the loop that reads the
selected items of a list. Additions of machine words are a parameter: an addition whose result is no
machine word either wraps around or has no result, which tells whether one has wrapped.
-/

namespace MultiPython.Obj

open Logic MultiPython.Num Str List Option

/-- How a slice is refused: by an exception, by an addition that does not fit a machine word, by an
item that is read outside of the sequence, or by a loop that goes on. -/
inductive SliceError where
  | raised (error : ListError)
  | wraps
  | outside
  | endless
deriving DecidableEq

/-- `mp_bound_slice_t`. -/
structure MpBoundSlice where
  start : Int
  stop : Int
  step : Int
deriving DecidableEq

/-- The addition of machine words, which wraps around. -/
def wrappingSum (config : NumConfig) (x y : Int) : Except SliceError Int := .ok (config.word (x + y))

/-- The addition of machine words as long as it does not wrap around. -/
def checkedSum (config : NumConfig) (x y : Int) : Except SliceError Int :=
  if IsMachineInt config.wordBits (x + y) then .ok (x + y) else .error .wraps

section Code

variable {α : Type} (config : NumConfig) (sum : Int → Int → Except SliceError Int)

/-- `mp_obj_get_int` of an integer. -/
def getInt (i : Int) : Except SliceError Int :=
  if IsMachineInt config.wordBits i then .ok i else .error (.raised .overflow)

/-- The step of a slice. -/
def boundStep : Option Int → Except SliceError Int
  | none => .ok 1
  | some ostep =>
    if ostep = 1 then .ok 1
    else do
      let step ← getInt config ostep
      if step = 0 then .error (.raised .valueError) else .ok step

/-- The start of a slice, before it is adjusted. -/
def givenStart (len : Nat) (step : Int) : Option Int → Except SliceError Int
  | none => .ok (if step > 0 then 0 else len - 1)
  | some ostart => getInt config ostart

/-- The stop of a slice, before it is adjusted. With a step down it is the last place. -/
def givenStop (len : Nat) (step : Int) : Option Int → Except SliceError Int
  | none => .ok (if step > 0 then len else 0)
  | some ostop => do
      let stop ← getInt config ostop
      if stop ≥ 0 ∧ step < 0 then sum stop 1 else .ok stop

/-- The start in the bounds of the sequence. -/
def adjustStart (len : Nat) (step start : Int) : Except SliceError Int :=
  if start < 0 then do
    let start ← sum len start
    .ok (if start < 0 then (if step < 0 then -1 else 0) else start)
  else if step > 0 ∧ start > len then .ok len
  else if step < 0 ∧ start ≥ len then .ok (len - 1)
  else .ok start

/-- The stop in the bounds of the sequence. -/
def adjustStop (len : Nat) (step stop : Int) : Except SliceError Int :=
  if stop < 0 then do
    let stop ← sum len stop
    let stop := if stop < 0 then -1 else stop
    if step < 0 then sum stop 1 else .ok stop
  else if stop > len then .ok len
  else .ok stop

/-- An empty slice. -/
def emptyStop (step start stop : Int) : Except SliceError Int :=
  if step > 0 ∧ start > stop then .ok start
  else if step < 0 ∧ start < stop then sum start 1
  else .ok stop

def mpSeqGetFastSliceIndexes (len : Nat) (slice : SliceObj) : Except SliceError MpBoundSlice := do
  let step ← boundStep config slice.step
  let start ← givenStart config len step slice.start
  let stop ← givenStop config sum len step slice.stop
  let start ← adjustStart sum len step start
  let stop ← adjustStop sum len step stop
  let stop ← emptyStop sum step start stop
  .ok ⟨start, stop, step⟩

/-- Read an item of a sequence. -/
def readItem (seq : List α) (start : Int) : Except SliceError α :=
  if 0 ≤ start then (seq[start.toNat]?).elim (.error .outside) .ok else .error .outside

/-- The loops of `mp_seq_extract_slice`. -/
def extractLoop (seq : List α) (stop step : Int) : Nat → Int → Except SliceError (List α)
  | 0, _ => .error .endless
  | rounds + 1, start =>
    if if step < 0 then start ≥ stop else start < stop then do
      let item ← readItem seq start
      let start ← sum start step
      let res ← extractLoop seq stop step rounds start
      .ok (item :: res)
    else .ok []

def mpSeqExtractSlice (seq : List α) (indexes : MpBoundSlice) : Except SliceError (List α) :=
  extractLoop sum seq indexes.stop indexes.step (seq.length + 1) indexes.start

/-- The copy of the items from a start to a stop. -/
def copySlice (seq : List α) (start stop : Int) : Except SliceError (List α) :=
  if 0 ≤ start ∧ start ≤ stop ∧ stop ≤ seq.length then
    .ok ((seq.drop start.toNat).take (stop - start).toNat)
  else .error .outside

/-- `list_subscr` for the load of a slice. -/
def loadSlice (self : List α) (slice : SliceObj) : Except SliceError (List α) := do
  let indexes ← mpSeqGetFastSliceIndexes config sum self.length slice
  if indexes.step = 1 then copySlice self indexes.start indexes.stop
  else mpSeqExtractSlice sum self indexes

end Code

/-! ## What a slice selects -/

/-- The step of a slice. -/
def SliceObj.stepValue (slice : SliceObj) : Int := slice.step.getD 1

/-- An end of a slice in the places from `low` to `high`; a negative one counts from the end. -/
def clampEnd (len : Nat) (low high : Int) (i : Int) : Int :=
  max low (min high (if i < 0 then i + len else i))

/-- The first place of a slice. -/
def SliceObj.first (slice : SliceObj) (len : Nat) : Int :=
  if 0 < slice.stepValue then slice.start.elim 0 (clampEnd len 0 len)
  else slice.start.elim (len - 1) (clampEnd len (-1) (len - 1))

/-- The place that a slice ends before. -/
def SliceObj.limit (slice : SliceObj) (len : Nat) : Int :=
  if 0 < slice.stepValue then slice.stop.elim len (clampEnd len 0 len)
  else slice.stop.elim (-1) (clampEnd len (-1) (len - 1))

/-- The places that a slice selects. -/
def SliceObj.places (slice : SliceObj) (len : Nat) : List Int :=
  rangeOf (slice.first len) (slice.limit len) slice.stepValue

/-- The items that a slice selects. -/
def selectedItems {α : Type} (items : List α) (slice : SliceObj) : List α :=
  (slice.places items.length).filterMap fun place => items[place.toNat]?

/-- The ends of a slice are machine words, and its step is one that is not zero. -/
structure SliceObj.IsWords (slice : SliceObj) (config : NumConfig) : Prop where
  start : ∀ i ∈ slice.start, IsMachineInt config.wordBits i
  stop : ∀ i ∈ slice.stop, IsMachineInt config.wordBits i
  step : ∀ i ∈ slice.step, IsMachineInt config.wordBits i
  nonzero : slice.stepValue ≠ 0

/-- No addition for a slice leaves the machine words: not the one for a stop that a step down makes
the last place, and not the last step up. -/
def SliceObj.WordsSuffice (slice : SliceObj) (config : NumConfig) (len : Nat) : Prop :=
  (slice.stepValue < 0 → ∀ stop ∈ slice.stop, IsMachineInt config.wordBits (stop + 1)) ∧
    (1 < slice.stepValue → ∀ last ∈ (slice.places len).getLast?,
      IsMachineInt config.wordBits (last + slice.stepValue))

/-- An addition that is exact where it does not leave the machine words. -/
def ExactSum (config : NumConfig) (sum : Int → Int → Except SliceError Int) : Prop :=
  ∀ x y, IsMachineInt config.wordBits (x + y) → sum x y = .ok (x + y)

theorem wrappingSum_exact (config : NumConfig) : ExactSum config (wrappingSum config) := by
  intro x y isWord
  rw [wrappingSum, NumConfig.word_eq_of isWord.1 isWord.2]

theorem checkedSum_exact (config : NumConfig) : ExactSum config (checkedSum config) := by
  intro x y isWord
  rw [checkedSum, if_pos isWord]

section Ends

variable {config : NumConfig} {sum : Int → Int → Except SliceError Int} {slice : SliceObj} {len : Nat}
  {step start stop : Int}

theorem wordRoom (config : NumConfig) : (256 : Int) ≤ 2 ^ config.wordBits :=
  calc (256 : Int) = 2 ^ 8 := by norm_num
    _ ≤ 2 ^ config.wordBits := pow_le_pow_right₀ (by omega) config.large.1

theorem boundStep_eq (words : slice.IsWords config) :
    boundStep config slice.step = .ok slice.stepValue := by
  have nonzero := words.nonzero
  have isWord := words.step
  unfold SliceObj.stepValue at *
  cases given : slice.step with
  | none => rfl
  | some ostep =>
    rw [given] at nonzero isWord
    simp only [getD_some] at nonzero ⊢
    rw [boundStep]
    split_ifs with isOne
    · rw [isOne]
    · rw [getInt, if_pos (isWord ostep rfl)]
      simp only [bind, Except.bind, if_neg nonzero]

theorem adjustStart_eq (exact_ : ExactSum config sum) (nonzero : step ≠ 0)
    (isWord : IsMachineInt config.wordBits start)
    (inMemory : 2 * (len : Int) < 2 ^ config.wordBits) :
    adjustStart sum len step start =
      .ok (if 0 < step then clampEnd len 0 len start else clampEnd len (-1) (len - 1) start) := by
  obtain ⟨lower, upper⟩ := isWord
  have added : start < 0 → sum len start = .ok (len + start) := by
    intro negative
    exact exact_ _ _ ⟨by omega, by omega⟩
  rw [adjustStart]
  by_cases negative : start < 0
  · rw [if_pos negative, added negative]
    simp only [bind, Except.bind, clampEnd, if_pos negative, Except.ok.injEq]
    split_ifs <;> omega
  · simp only [if_neg negative, clampEnd]
    split_ifs <;> simp only [Except.ok.injEq] <;> omega

theorem adjustStop_eq (exact_ : ExactSum config sum) (nonzero : step ≠ 0)
    (isWord : IsMachineInt config.wordBits stop)
    (inMemory : 2 * (len : Int) < 2 ^ config.wordBits) :
    adjustStop sum len step stop =
      .ok (if 0 < step then max (-1) (min len (if stop < 0 then stop + len else stop))
        else if stop < 0 then max 0 (stop + len + 1) else min len stop) := by
  obtain ⟨lower, upper⟩ := isWord
  have room := wordRoom config
  have added : stop < 0 → sum len stop = .ok (len + stop) := by
    intro negative
    exact exact_ _ _ ⟨by omega, by omega⟩
  rw [adjustStop]
  by_cases negative : stop < 0
  · have kept : (if (len : Int) + stop < 0 then -1 else (len : Int) + stop) =
        max (-1) (len + stop) := by
      split_ifs <;> omega
    rw [if_pos negative, added negative]
    simp only [bind, Except.bind, if_pos negative, kept]
    by_cases down : step < 0
    · have notUp : ¬ 0 < step := by omega
      rw [if_pos down, if_neg notUp, exact_ _ _ ⟨by omega, by omega⟩, Except.ok.injEq]
      omega
    · have up : 0 < step := by omega
      rw [if_neg down, if_pos up, Except.ok.injEq]
      omega
  · simp only [if_neg negative]
    split_ifs <;> simp only [Except.ok.injEq] <;> omega

theorem start_spec (exact_ : ExactSum config sum) (words : slice.IsWords config)
    (inMemory : 2 * (len : Int) < 2 ^ config.wordBits) :
    ∃ start, givenStart config len slice.stepValue slice.start = .ok start ∧
      adjustStart sum len slice.stepValue start = .ok (slice.first len) := by
  have room := wordRoom config
  unfold SliceObj.first
  cases given : slice.start with
  | none =>
    refine ⟨_, rfl, ?_⟩
    rw [adjustStart_eq exact_ words.nonzero ⟨by split_ifs <;> omega, by split_ifs <;> omega⟩ inMemory,
      Except.ok.injEq]
    simp only [clampEnd, elim_none]
    split_ifs <;> omega
  | some ostart =>
    have isWord := words.start ostart given
    refine ⟨ostart, by rw [givenStart, getInt, if_pos isWord], ?_⟩
    rw [adjustStart_eq exact_ words.nonzero isWord inMemory]
    rfl

/-- The end of a slice that the loop of a step up stops at, or the last place of one down. -/
theorem stop_spec (exact_ : ExactSum config sum) (words : slice.IsWords config)
    (inMemory : 2 * (len : Int) < 2 ^ config.wordBits)
    (suffice : slice.stepValue < 0 → ∀ stop ∈ slice.stop, IsMachineInt config.wordBits (stop + 1)) :
    ∃ stop bound, givenStop config sum len slice.stepValue slice.stop = .ok stop ∧
      adjustStop sum len slice.stepValue stop = .ok bound ∧
      (0 < slice.stepValue → max 0 bound = slice.limit len) ∧
      (slice.stepValue < 0 → bound = slice.limit len + 1) := by
  have room := wordRoom config
  have nonzero := words.nonzero
  unfold SliceObj.limit
  cases given : slice.stop with
  | none =>
    refine ⟨_, _, rfl, adjustStop_eq exact_ nonzero
      ⟨by split_ifs <;> omega, by split_ifs <;> omega⟩ inMemory, ?_, ?_⟩
    · intro up
      simp only [if_pos up, elim_none, gt_iff_lt]
      split_ifs <;> omega
    · intro down
      have notUp : ¬ 0 < slice.stepValue := by omega
      simp only [if_neg notUp, elim_none, gt_iff_lt]
      split_ifs <;> omega
  | some ostop =>
    have isWord := words.stop ostop given
    by_cases downFrom : ostop ≥ 0 ∧ slice.stepValue < 0
    · have next := suffice downFrom.2 ostop given
      refine ⟨ostop + 1, _, ?_, adjustStop_eq exact_ nonzero next inMemory, ?_, ?_⟩
      · rw [givenStop, getInt, if_pos isWord]
        simp only [bind, Except.bind, if_pos downFrom]
        exact exact_ _ _ next
      · omega
      · intro down
        have notUp : ¬ 0 < slice.stepValue := by omega
        simp only [if_neg notUp, elim_some, clampEnd]
        split_ifs <;> omega
    · refine ⟨ostop, _, ?_, adjustStop_eq exact_ nonzero isWord inMemory, ?_, ?_⟩
      · rw [givenStop, getInt, if_pos isWord]
        simp only [bind, Except.bind, if_neg downFrom]
      · intro up
        simp only [if_pos up, elim_some, clampEnd]
        split_ifs <;> omega
      · intro down
        have notUp : ¬ 0 < slice.stepValue := by omega
        simp only [if_neg notUp, elim_some, clampEnd]
        split_ifs <;> omega

theorem first_bounds :
    (0 < slice.stepValue → 0 ≤ slice.first len ∧ slice.first len ≤ len ∧ slice.limit len ≤ len) ∧
      (slice.stepValue < 0 → -1 ≤ slice.first len ∧ slice.first len ≤ len - 1 ∧
        -1 ≤ slice.limit len) := by
  unfold SliceObj.first SliceObj.limit clampEnd
  constructor
  · intro up
    rw [if_pos up, if_pos up]
    cases slice.start <;> cases slice.stop <;> simp only [elim_none, elim_some] <;> omega
  · intro down
    rw [if_neg (by omega), if_neg (by omega)]
    cases slice.start <;> cases slice.stop <;> simp only [elim_none, elim_some] <;> omega

/-- The bounds of a slice, if the addition for its stop does not leave the machine words. -/
theorem mpSeqGetFastSliceIndexes_spec (exact_ : ExactSum config sum) (words : slice.IsWords config)
    (inMemory : 2 * (len : Int) < 2 ^ config.wordBits)
    (suffice : slice.stepValue < 0 → ∀ stop ∈ slice.stop, IsMachineInt config.wordBits (stop + 1)) :
    ∃ stop, mpSeqGetFastSliceIndexes config sum len slice =
        .ok ⟨slice.first len, stop, slice.stepValue⟩ ∧
      (0 < slice.stepValue → stop = max (slice.first len) (slice.limit len)) ∧
      (slice.stepValue < 0 → stop = min (slice.first len) (slice.limit len) + 1) := by
  obtain ⟨start, isStart, startBound⟩ := start_spec exact_ words inMemory
  obtain ⟨stop, bound, isStop, stopBound, upward, downward⟩ := stop_spec exact_ words inMemory suffice
  have room := wordRoom config
  obtain ⟨upBounds, downBounds⟩ := @first_bounds slice len
  have runs : mpSeqGetFastSliceIndexes config sum len slice =
      (emptyStop sum slice.stepValue (slice.first len) bound).map
        fun stop => ⟨slice.first len, stop, slice.stepValue⟩ := by
    simp only [mpSeqGetFastSliceIndexes, bind, Except.bind, boundStep_eq words, isStart, isStop,
      startBound, stopBound]
    rfl
  rw [runs, emptyStop]
  rcases lt_or_gt_of_ne words.nonzero with down | up
  · have isBound := downward down
    have bounds := downBounds down
    rw [if_neg (by omega)]
    by_cases isEmpty : slice.first len < bound
    · rw [if_pos ⟨down, isEmpty⟩, exact_ _ _ ⟨by omega, by omega⟩]
      exact ⟨_, rfl, by omega, by omega⟩
    · rw [if_neg (by omega)]
      exact ⟨_, rfl, by omega, by omega⟩
  · have isBound := upward up
    have bounds := upBounds up
    by_cases isEmpty : slice.first len > bound
    · rw [if_pos ⟨up, isEmpty⟩]
      exact ⟨_, rfl, by omega, by omega⟩
    · rw [if_neg (by omega), if_neg (by omega)]
      exact ⟨_, rfl, by omega, by omega⟩

end Ends

/-! ## Places -/

section Places

variable {config : NumConfig} {slice : SliceObj} {len : Nat} {place : Int}

theorem places_inside (nonzero : slice.stepValue ≠ 0) (isIn : place ∈ slice.places len) :
    0 ≤ place ∧ place < len := by
  obtain ⟨i, rfl, before⟩ := (mem_rangeOf nonzero).mp isIn
  obtain ⟨upBounds, downBounds⟩ := @first_bounds slice len
  have iNonneg : 0 ≤ (i : Int) := Int.natCast_nonneg i
  rcases lt_or_gt_of_ne nonzero with down | up
  · rw [before_down down] at before
    have falls := mul_nonpos_of_nonneg_of_nonpos iNonneg down.le
    have := downBounds down
    omega
  · rw [before_up up] at before
    have rises := mul_nonneg iNonneg up.le
    have := upBounds up
    omega

theorem length_places_le (nonzero : slice.stepValue ≠ 0) :
    stepsTo (slice.first len) (slice.limit len) slice.stepValue ≤ len := by
  by_contra more
  have before := (lt_stepsTo_iff nonzero).mp (not_le.mp more)
  obtain ⟨upBounds, downBounds⟩ := @first_bounds slice len
  rcases lt_or_gt_of_ne nonzero with down | up
  · rw [before_down down] at before
    have falls : (len : Int) * slice.stepValue ≤ len * (-1) :=
      mul_le_mul_of_nonneg_left (by omega) (Int.natCast_nonneg len)
    have := downBounds down
    omega
  · rw [before_up up] at before
    have rises : (len : Int) * 1 ≤ len * slice.stepValue :=
      mul_le_mul_of_nonneg_left (by omega) (Int.natCast_nonneg len)
    have := upBounds up
    omega

theorem places_add (words : slice.IsWords config) (inMemory : 2 * (len : Int) < 2 ^ config.wordBits)
    (suffice : slice.WordsSuffice config len) (notOne : slice.stepValue ≠ 1)
    (isIn : place ∈ slice.places len) : IsMachineInt config.wordBits (place + slice.stepValue) := by
  have nonzero := words.nonzero
  have inside := places_inside nonzero isIn
  have stepWord : IsMachineInt config.wordBits slice.stepValue := by
    have room := wordRoom config
    unfold SliceObj.stepValue
    cases given : slice.step with
    | none => exact ⟨by simp only [getD_none]; omega, by simp only [getD_none]; omega⟩
    | some step => exact words.step step given
  obtain ⟨lower, upper⟩ := stepWord
  rcases lt_or_gt_of_ne nonzero with down | up
  · exact ⟨by omega, by omega⟩
  · have some_ : slice.places len ≠ [] := ne_nil_of_mem isIn
    have isLast : (slice.places len).getLast some_ ∈ (slice.places len).getLast? := by
      rw [getLast?_eq_getLast_of_ne_nil some_, mem_some_iff]
    have atMost := le_getLast?_rangeOf up.le isIn isLast
    have fits := (suffice.2 (by omega) _ isLast).2
    exact ⟨by omega, by omega⟩

end Places

/-! ## Loops -/

section Loops

variable {α : Type} {config : NumConfig} {sum : Int → Int → Except SliceError Int} {items : List α}
  {start stop limit step : Int} {rounds : Nat}

theorem readItem_eq (positive : 0 ≤ start) (inside : start < items.length) :
    ∃ item, items[start.toNat]? = some item ∧ readItem items start = .ok item := by
  have bound : start.toNat < items.length := by omega
  refine ⟨items[start.toNat], List.getElem?_eq_getElem bound, ?_⟩
  rw [readItem, if_pos positive, List.getElem?_eq_getElem bound]
  rfl

theorem extractLoop_eq (exact_ : ExactSum config sum) (nonzero : step ≠ 0)
    (goes : ∀ x ∈ rangeOf start limit step,
      (if step < 0 then x ≥ stop else x < stop) ∧ 0 ≤ x ∧ x < items.length ∧
        IsMachineInt config.wordBits (x + step))
    (ends : ¬ if step < 0 then start + stepsTo start limit step * step ≥ stop
      else start + stepsTo start limit step * step < stop)
    (enough : stepsTo start limit step < rounds) :
    extractLoop sum items stop step rounds start =
      .ok ((rangeOf start limit step).filterMap fun place => items[place.toNat]?) := by
  induction rounds generalizing start with
  | zero => omega
  | succ rounds ih =>
    rw [extractLoop]
    by_cases before : Before step start limit
    · rw [rangeOf_of_before nonzero before] at goes ⊢
      rw [stepsTo_of_before nonzero before] at enough ends
      obtain ⟨going, positive, inside, isWord⟩ := goes start (by simp)
      obtain ⟨item, isItem, isRead⟩ := readItem_eq positive inside
      have next : start + (stepsTo (start + step) limit step + 1 : Nat) * step =
          start + step + stepsTo (start + step) limit step * step := by
        push_cast
        ring
      rw [next] at ends
      have rest := @ih (start + step)
        (fun x isIn => goes x (mem_cons_of_mem start isIn)) ends (by omega)
      rw [if_pos going, isRead]
      simp only [bind, Except.bind, exact_ _ _ isWord, rest, filterMap_cons, isItem]
    · rw [stepsTo_of_not_before nonzero before, Nat.cast_zero, Int.zero_mul, Int.add_zero] at ends
      rw [if_neg ends, rangeOf_of_not_before nonzero before]
      rfl

/-- A loop that ends without an addition that wraps has none behind its last place either. -/
theorem extractLoop_checked (nonzero : step ≠ 0) {res : List α} {last : Int}
    (goes : ∀ x, Before step x limit → if step < 0 then x ≥ stop else x < stop)
    (ended : extractLoop (checkedSum config) items stop step rounds start = .ok res)
    (isLast : last ∈ (rangeOf start limit step).getLast?) :
    IsMachineInt config.wordBits (last + step) := by
  induction rounds generalizing start res with
  | zero => cases ended
  | succ rounds ih =>
    by_cases before : Before step start limit
    · rw [extractLoop, if_pos (goes start before)] at ended
      cases isRead : readItem items start with
      | error error =>
        rw [isRead] at ended
        cases ended
      | ok item =>
        by_cases isWord : IsMachineInt config.wordBits (start + step)
        · simp only [bind, Except.bind, isRead, checkedSum_exact config _ _ isWord] at ended
          rw [rangeOf_of_before nonzero before] at isLast
          cases rest : extractLoop (checkedSum config) items stop step rounds (start + step) with
          | error error =>
            rw [rest] at ended
            cases ended
          | ok more =>
            by_cases again : Before step (start + step) limit
            · apply ih rest
              rwa [rangeOf_of_before nonzero again, getLast?_cons_cons,
                ← rangeOf_of_before nonzero again] at isLast
            · rw [rangeOf_of_not_before nonzero again] at isLast
              cases isLast
              exact isWord
        · simp only [bind, Except.bind, isRead, checkedSum, if_neg isWord] at ended
          cases ended
    · rw [rangeOf_of_not_before nonzero before] at isLast
      cases isLast

/-- The copy of the items from one place to another one. -/
theorem copySlice_eq (positive : 0 ≤ start) (inside : start ≤ items.length)
    (limitInside : limit ≤ items.length) :
    copySlice items start (max start limit) =
      .ok ((rangeOf start limit 1).filterMap fun place => items[place.toNat]?) := by
  have copied : ∀ (count : Nat) (start : Int), 0 ≤ start → start + count = limit →
      (items.drop start.toNat).take count =
        (rangeOf start limit 1).filterMap fun place => items[place.toNat]? := by
    intro count
    induction count with
    | zero =>
      intro start _ isLimit
      have ended : ¬ Before 1 start limit := by
        rw [before_up (by decide)]
        omega
      rw [rangeOf_of_not_before (by decide) ended]
      rfl
    | succ count ih =>
      intro start positive isLimit
      have before : Before 1 start limit := by
        rw [before_up (by decide)]
        omega
      have inside : start.toNat < items.length := by omega
      have next : (start + 1).toNat = start.toNat + 1 := by omega
      rw [rangeOf_of_before (by decide) before, filterMap_cons, List.getElem?_eq_getElem inside,
        drop_eq_getElem_cons inside, take_succ_cons, ← next,
        ih (start + 1) (by omega) (by push_cast at isLimit; omega)]
  rw [copySlice, if_pos ⟨positive, le_max_left _ _, by omega⟩]
  by_cases some_ : start ≤ limit
  · rw [max_eq_right some_, copied (limit - start).toNat start positive (by omega)]
  · have ended : ¬ Before 1 start limit := by
      rw [before_up (by decide)]
      omega
    rw [max_eq_left (by omega), rangeOf_of_not_before (by decide) ended, Int.sub_self]
    rfl

end Loops

section Load

variable {α : Type} {config : NumConfig} {sum : Int → Int → Except SliceError Int} {items : List α}
  {slice : SliceObj} {stop : Int}

section

variable (exact_ : ExactSum config sum) (words : slice.IsWords config)
  (inMemory : 2 * (items.length : Int) < 2 ^ config.wordBits)
  (suffice : slice.WordsSuffice config items.length)

include exact_ words inMemory suffice

/-- The loop with the bounds of a slice. -/
theorem extractLoop_places (notOne : slice.stepValue ≠ 1)
    (upward : 0 < slice.stepValue → stop = max (slice.first items.length) (slice.limit items.length))
    (downward : slice.stepValue < 0 → stop = min (slice.first items.length) (slice.limit items.length) + 1) :
    extractLoop sum items stop slice.stepValue (items.length + 1) (slice.first items.length) =
      .ok (selectedItems items slice) := by
  have nonzero := words.nonzero
  apply extractLoop_eq exact_ nonzero
  · intro x isIn
    have inside := places_inside nonzero isIn
    refine ⟨?_, inside.1, inside.2, places_add words inMemory suffice notOne isIn⟩
    obtain ⟨i, isX, before⟩ := (mem_rangeOf nonzero).mp isIn
    rcases lt_or_gt_of_ne nonzero with down | up
    · rw [before_down down] at before
      have falls := mul_nonpos_of_nonneg_of_nonpos (Int.natCast_nonneg i) down.le
      have isStop := downward down
      rw [if_pos down]
      omega
    · rw [before_up up] at before
      have isStop := upward up
      rw [if_neg (by omega)]
      omega
  · have ended := (@lt_stepsTo_iff (slice.first items.length) (slice.limit items.length)
      slice.stepValue _ nonzero).not.mp (lt_irrefl _)
    have steps := Int.natCast_nonneg
      (stepsTo (slice.first items.length) (slice.limit items.length) slice.stepValue)
    rcases lt_or_gt_of_ne nonzero with down | up
    · rw [before_down down] at ended
      have falls := mul_nonpos_of_nonneg_of_nonpos steps down.le
      have isStop := downward down
      rw [if_pos down]
      omega
    · rw [before_up up] at ended
      have rises := mul_nonneg steps up.le
      have isStop := upward up
      rw [if_neg (by omega)]
      omega
  · exact Nat.lt_succ_of_le (length_places_le nonzero)

theorem loadSlice_eq :
    loadSlice config sum items slice = .ok (selectedItems items slice) := by
  obtain ⟨stop, isBounds, upward, downward⟩ :=
    mpSeqGetFastSliceIndexes_spec exact_ words inMemory suffice.1
  simp only [loadSlice, bind, Except.bind, isBounds]
  by_cases isOne : slice.stepValue = 1
  · obtain ⟨positive, inside, limitInside⟩ :=
      (@first_bounds slice items.length).1 (by omega)
    rw [if_pos isOne, upward (by omega), copySlice_eq positive inside limitInside, selectedItems,
      SliceObj.places, isOne]
  · rw [if_neg isOne]
    exact extractLoop_places exact_ words inMemory suffice isOne upward downward

end

/-- A load without an addition that wraps around has none to wrap. -/
theorem wordsSuffice_of_checked (words : slice.IsWords config)
    (inMemory : 2 * (items.length : Int) < 2 ^ config.wordBits) {res : List α}
    (loaded : loadSlice config (checkedSum config) items slice = .ok res) :
    slice.WordsSuffice config items.length := by
  have nonzero := words.nonzero
  have first : slice.stepValue < 0 → ∀ stop ∈ slice.stop,
      IsMachineInt config.wordBits (stop + 1) := by
    intro down stop given
    by_contra wraps
    have isWord := words.stop stop given
    have positive : stop ≥ 0 := by
      by_contra negative
      exact wraps ⟨by have := isWord.1; omega, by have := isWord.2; have := wordRoom config; omega⟩
    obtain ⟨start, isStart, -⟩ := start_spec (checkedSum_exact config) words inMemory
    have refused : givenStop config (checkedSum config) items.length slice.stepValue slice.stop =
        .error .wraps := by
      rw [given, givenStop, getInt, if_pos isWord]
      simp only [bind, Except.bind, if_pos (And.intro positive down), checkedSum, if_neg wraps]
    simp only [loadSlice, mpSeqGetFastSliceIndexes, bind, Except.bind, boundStep_eq words, isStart,
      refused] at loaded
    cases loaded
  refine ⟨first, ?_⟩
  intro up last isLast
  obtain ⟨stop, isBounds, upward, -⟩ :=
    mpSeqGetFastSliceIndexes_spec (checkedSum_exact config) words inMemory first
  have isStop := upward (by omega)
  have notOne : ¬ slice.stepValue = 1 := by omega
  have notDown : ¬ slice.stepValue < 0 := by omega
  simp only [loadSlice, bind, Except.bind, isBounds, if_neg notOne] at loaded
  refine extractLoop_checked nonzero ?_ loaded isLast
  intro x before
  rw [before_up (by omega)] at before
  simp only [if_neg notDown]
  omega

end Load

end MultiPython.Obj
