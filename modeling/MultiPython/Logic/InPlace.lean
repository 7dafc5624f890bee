import MultiPython.Logic.Buffer

/-!
# Passes that work in place

A pass over a block of memory reads an item from each of two sources and stores one, position
after position. A source is a block of its own, or the block that the pass stores into. A
position is stored after it has been read, and is not read again, so that it makes no difference
which of them a source is: the pass stores what the same rounds yield on the two lists that the
sources held when it began.
-/

namespace MultiPython.Logic

open List Option

universe u

variable {σ α : Type u}

/-- A block that a pass reads: the one that it stores into, or another one. -/
inductive Source (α : Type u) where
  | same
  | apart (cells : List α)

namespace Source

/-- What a source holds, while the block that is stored into holds `dest`. -/
def cells (dest : List α) : Source α → List α
  | same => dest
  | apart cells => cells

/-- Read a source that is shorter than the pass is long: nothing is read from `limit` on. -/
def below (dest : List α) (source : Source α) (limit position : Nat) : Option (Option α) :=
  if position < limit then (source.cells dest)[position]?.map some else some none

end Source

/-- `count` rounds of a pass, from a position on. A round may have no result. -/
def pass (round : σ → α → Option α → Option (σ × α)) (left right : Source α) (limit : Nat) :
    Nat → Nat → σ → List α → Option (σ × List α)
  | 0, _, state, dest => some (state, dest)
  | count + 1, position, state, dest => do
      let first ← (left.cells dest)[position]?
      let second ← right.below dest limit position
      let next ← round state first second
      let dest ← storeAt dest position [next.2]
      pass round left right limit count (position + 1) next.1 dest

/-- The same rounds on two lists. -/
def roundsOn (round : σ → α → Option α → Option (σ × α)) : σ → List α → List α → Option (σ × List α)
  | state, [], _ => some (state, [])
  | state, first :: firsts, seconds => do
      let next ← round state first seconds.head?
      let rest ← roundsOn round next.1 firsts seconds.tail
      some (rest.1, next.2 :: rest.2)

variable {round : σ → α → Option α → Option (σ × α)} {left right : Source α} {dest after : List α}
  {limit position : Nat} {item : α} {state final : σ} {firsts seconds outs : List α}

/-- A store does not change what a source holds behind the position. -/
theorem Source.drop_cells_storeAt (source : Source α) {count : Nat} (behind : position < count)
    (stored : storeAt dest position [item] = some after) :
    (source.cells after).drop count = (source.cells dest).drop count := by
  cases source with
  | same => exact drop_storeAt_behind stored behind
  | apart cells => rfl

/-- A store does not change what a source holds before the position. -/
theorem Source.take_cells_storeAt (source : Source α) {count : Nat} (before : count ≤ position)
    (stored : storeAt dest position [item] = some after) :
    (source.cells after).take count = (source.cells dest).take count := by
  cases source with
  | same => exact take_storeAt stored before
  | apart cells => rfl

/-- What a source holds at a position, if a list is known to be there. -/
theorem getElem?_of_prefix_drop {cells : List α}
    (holds : item :: firsts <+: cells.drop position) : cells[position]? = some item := by
  obtain ⟨spare, isDrop⟩ := holds
  have first := congrArg List.head? isDrop
  rw [List.head?_drop] at first
  exact first.symm

theorem prefix_drop_succ {cells : List α} (holds : item :: firsts <+: cells.drop position) :
    firsts <+: cells.drop (position + 1) := by
  obtain ⟨spare, isDrop⟩ := holds
  refine ⟨spare, ?_⟩
  rw [← drop_drop, ← isDrop]
  rfl

theorem tail_prefix_drop_succ {cells : List α} (holds : seconds <+: cells.drop position) :
    seconds.tail <+: cells.drop (position + 1) := by
  cases seconds with
  | nil => exact nil_prefix
  | cons second seconds => exact prefix_drop_succ holds

/-- The second source yields an item as long as its list has one. -/
theorem Source.below_eq (holds : seconds <+: (right.cells dest).drop position)
    (length : seconds.length = limit - position) :
    right.below dest limit position = some seconds.head? := by
  rw [Source.below]
  cases seconds with
  | nil =>
    rw [length_nil] at length
    rw [if_neg (by omega)]
    rfl
  | cons second seconds =>
    rw [length_cons] at length
    rw [if_pos (by omega), getElem?_of_prefix_drop holds]
    rfl

/-- A pass stores what the rounds on the lists yield that its sources hold, and nothing else. -/
theorem pass_eq_rounds (leftHolds : firsts <+: (left.cells dest).drop position)
    (rightHolds : seconds <+: (right.cells dest).drop position)
    (length : seconds.length = limit - position)
    (inside : position + firsts.length ≤ dest.length) :
    pass round left right limit firsts.length position state dest =
      (roundsOn round state firsts seconds).map fun result =>
        (result.1, dest.take position ++ result.2 ++ dest.drop (position + firsts.length)) := by
  induction firsts generalizing seconds position state dest with
  | nil => simp [pass, roundsOn]
  | cons first firsts ih =>
    rw [length_cons] at inside ⊢
    rw [pass, roundsOn, getElem?_of_prefix_drop leftHolds, Source.below_eq rightHolds length]
    simp only [bind_eq_bind, bind_some]
    cases isNext : round state first seconds.head? with
    | none => rfl
    | some next =>
      obtain ⟨after, stored⟩ := @storeAt_isSome _ dest [next.2] position (by simp; omega)
      have kept := left.drop_cells_storeAt (Nat.lt_succ_self _) stored
      have rightKept := right.drop_cells_storeAt (Nat.lt_succ_self _) stored
      have written : after.take (position + 1) = dest.take position ++ [next.2] := by
        have behind := drop_storeAt stored
        rw [take_add, take_storeAt stored (Nat.le_refl _), behind]
        rfl
      have unwritten : after.drop (position + 1 + firsts.length) =
          dest.drop (position + (firsts.length + 1)) := by
        rw [Nat.add_assoc, Nat.add_comm 1]
        exact drop_storeAt_behind stored (by simp)
      have rest := @ih after (position + 1) next.1 seconds.tail
        (by rw [kept]; exact prefix_drop_succ leftHolds)
        (by rw [rightKept]; exact tail_prefix_drop_succ rightHolds)
        (by rw [length_tail, length, Nat.sub_sub])
        (by rw [length_of_storeAt stored]; omega)
      rw [written, unwritten] at rest
      simp only [bind_some, stored, rest]
      cases roundsOn round next.1 firsts seconds.tail with
      | none => rfl
      | some result => simp

/-- The rounds yield an item for each one of the first list. -/
theorem length_of_rounds (walks : roundsOn round state firsts seconds = some (final, outs)) :
    outs.length = firsts.length := by
  induction firsts generalizing state final seconds outs with
  | nil =>
    simp only [roundsOn, some.injEq, Prod.mk.injEq] at walks
    rw [← walks.2]
  | cons first firsts ih =>
    rw [roundsOn] at walks
    simp only [bind_eq_bind, bind_eq_some_iff, some.injEq,
      Prod.mk.injEq] at walks
    obtain ⟨next, -, rest, isRest, -, rfl⟩ := walks
    rw [length_cons, ih isRest, length_cons]

/-- A pass from the front of the block. -/
theorem pass_of_rounds (walks : roundsOn round state firsts seconds = some (final, outs))
    (leftHolds : firsts <+: left.cells dest) (rightHolds : seconds <+: right.cells dest)
    (inside : firsts.length ≤ dest.length) :
    pass round left right seconds.length firsts.length 0 state dest =
      some (final, outs ++ dest.drop firsts.length) := by
  rw [pass_eq_rounds (by simpa using leftHolds) (by simpa using rightHolds) rfl (by omega), walks,
    Nat.zero_add]
  rfl

end MultiPython.Logic
