import Mathlib

/-!
# Binary heaps

The two loops of a binary heap in an array: one moves an item towards the root, the other moves a
hole to the bottom. They compare with a function that need not be an order; the lemmas ask that
it orders the items of the heap by a key. `listing` is what an array holds.
-/

namespace MultiPython.Logic.SiftHeap

open List Function

variable {α : Type} (less : α → α → Bool)

/-- The index above an index. -/
def parent (index : Nat) : Nat := (index - 1) / 2

/-- Move an item up from a position to where nothing above it is larger. -/
def siftDown (start : Nat) (item : α) : Nat → (Nat → α) → Nat → Nat → α
  | 0, items, pos => Function.update items pos item
  | fuel + 1, items, pos =>
    if start < pos then
      if less item (items (parent pos)) then
        siftDown start item fuel (Function.update items pos (items (parent pos))) (parent pos)
      else
        Function.update items pos item
    else
      Function.update items pos item

/-- The right child of a position, if there is one and the left one is not smaller, else the
left child. -/
def smallerChild (endPos : Nat) (items : Nat → α) (pos : Nat) : Nat :=
  if 2 * pos + 2 < endPos && !less (items (2 * pos + 1)) (items (2 * pos + 2)) then 2 * pos + 2
  else 2 * pos + 1

/-- Move the smaller child up, until the hole is at the bottom. -/
def bubbleUp (endPos : Nat) : Nat → (Nat → α) → Nat → (Nat → α) × Nat
  | 0, items, pos => (items, pos)
  | fuel + 1, items, pos =>
    if 2 * pos + 1 < endPos then
      let child := smallerChild less endPos items pos
      bubbleUp endPos fuel (Function.update items pos (items child)) child
    else
      (items, pos)

/-- The items of an array. -/
def listing (items : Nat → α) (len : Nat) : List α := (List.range len).map items

section Listing

variable {items : Nat → α} {len first second pos : Nat} {item : α}

theorem mem_listing : item ∈ listing items len ↔ ∃ index < len, items index = item := by
  simp [listing]

theorem listing_succ : listing items (len + 1) = listing items len ++ [items len] := by
  simp [listing, range_succ]

@[simp]
theorem length_listing : (listing items len).length = len := by simp [listing]

/-- The items before a position do not depend on what stands there. -/
theorem listing_update_of_le (beyond : len ≤ pos) :
    listing (Function.update items pos item) len = listing items len := by
  refine map_congr_left fun index member => ?_
  have inside := mem_range.mp member
  exact update_of_ne (by omega) _ _

theorem swap_lt {index : Nat} (firstInside : first < len) (secondInside : second < len)
    (inside : index < len) : Equiv.swap first second index < len := by
  rw [Equiv.swap_apply_def]
  split_ifs <;> omega

/-- Swapping two items permutes the array. -/
theorem listing_swap (firstInside : first < len) (secondInside : second < len) :
    (listing (items ∘ Equiv.swap first second) len).Perm (listing items len) := by
  have indices : ((range len).map (Equiv.swap first second)).Perm (range len) := by
    refine (perm_ext_iff_of_nodup ?_ nodup_range).mpr fun index => ?_
    · exact nodup_range.map (Equiv.swap first second).injective
    · simp only [mem_map, mem_range]
      constructor
      · rintro ⟨other, inside, rfl⟩
        exact swap_lt firstInside secondInside inside
      · intro inside
        exact ⟨_, swap_lt firstInside secondInside inside, Equiv.swap_apply_self ..⟩
  have mapped := indices.map items
  rwa [map_map] at mapped

/-- Moving an item into a hole, and the hole to where it came from, is a swap. -/
theorem fill_moved (pos from_ : Nat) (differ : from_ ≠ pos) :
    Function.update (Function.update items pos (items from_)) from_ item =
      Function.update items pos item ∘ Equiv.swap pos from_ := by
  funext index
  rw [comp_apply, Equiv.swap_apply_def]
  split_ifs with atPos atFrom
  · rw [atPos, update_of_ne differ.symm, update_self,
      update_of_ne differ]
  · rw [atFrom, update_self, update_self]
  · rw [update_of_ne atFrom, update_of_ne atPos, update_of_ne atPos]

/-- Moving an item into a hole permutes the array without the hole. -/
theorem listing_moved {from_ : Nat} (differ : from_ ≠ pos) (inside : pos < len)
    (fromInside : from_ < len) :
    (listing (Function.update (Function.update items pos (items from_)) from_ item) len).Perm
      (listing (Function.update items pos item) len) := by
  rw [fill_moved pos from_ differ]
  exact listing_swap inside fromInside

/-- Replacing the first item by the last one takes the first one away. -/
theorem listing_takeFirst :
    (items 0 :: listing (Function.update items 0 (items len)) len).Perm
      (listing items (len + 1)) := by
  cases len with
  | zero => simp [listing]
  | succ len =>
    have rest : listing (Function.update items 0 (items (len + 1))) (len + 1) =
        items (len + 1) :: (range len).map (items ∘ Nat.succ) := by
      rw [listing, range_succ_eq_map, map_cons, update_self, map_map]
      congr 1
    rw [rest, listing_succ, listing, range_succ_eq_map, map_cons, map_map]
    refine (List.Perm.cons _ ?_)
    exact @perm_append_comm _ [items (len + 1)] _

end Listing

section Order

variable {κ : Type} [LinearOrder κ] {key : α → κ} {present : α → Prop} {less : α → α → Bool}
variable {items : Nat → α} {len pos : Nat} {item : α}

/-- On the items that are present, the comparison compares keys. -/
def Compares (less : α → α → Bool) (key : α → κ) (present : α → Prop) : Prop :=
  ∀ first second, present first → present second →
    (less first second = true ↔ key first < key second)

/-- No item of the heap is smaller than the one above it. -/
def HeapOrdered (key : α → κ) (items : Nat → α) (len : Nat) : Prop :=
  ∀ index, 0 < index → index < len → key (items (parent index)) ≤ key (items index)

/-- A heap but for the item at a position, which may be smaller than the one above it. -/
structure OrderedBelow (key : α → κ) (items : Nat → α) (len pos : Nat) : Prop where
  others : ∀ index, 0 < index → index < len → index ≠ pos →
    key (items (parent index)) ≤ key (items index)
  across : ∀ index, 0 < index → index < len → parent index = pos → 0 < pos →
    key (items (parent pos)) ≤ key (items index)

/-- A heap but for the item at a position, which may be larger than those below it. -/
structure OrderedAround (key : α → κ) (items : Nat → α) (len pos : Nat) : Prop where
  others : ∀ index, 0 < index → index < len → index ≠ pos → parent index ≠ pos →
    key (items (parent index)) ≤ key (items index)
  across : ∀ index, 0 < index → index < len → parent index = pos → 0 < pos →
    key (items (parent pos)) ≤ key (items index)

/-- A heap, in terms of the comparison. -/
theorem heapOrdered_iff (compares : Compares less key present)
    (allPresent : ∀ entry ∈ listing items len, present entry) :
    HeapOrdered key items len ↔
      ∀ index, 0 < index → index < len → less (items index) (items (parent index)) = false := by
  have edge (index : Nat) (positive : 0 < index) (inside : index < len) :
      key (items (parent index)) ≤ key (items index) ↔
        less (items index) (items (parent index)) = false := by
    have above : parent index < len := by
      unfold parent
      omega
    rw [← not_lt, ← compares _ _ (allPresent _ (mem_listing.mpr ⟨index, inside, rfl⟩))
      (allPresent _ (mem_listing.mpr ⟨_, above, rfl⟩)), Bool.not_eq_true]
  exact ⟨fun ordered index positive inside =>
    (edge index positive inside).mp (ordered index positive inside),
    fun ordered index positive inside =>
      (edge index positive inside).mpr (ordered index positive inside)⟩

/-- The first item of a heap is the smallest. -/
theorem HeapOrdered.first_le (ordered : HeapOrdered key items len) :
    ∀ index < len, key (items 0) ≤ key (items index) := by
  intro index
  induction index using Nat.strong_induction_on with
  | _ index ih =>
    intro inside
    rcases Nat.eq_zero_or_pos index with rfl | positive
    · exact le_rfl
    · have above : parent index < index := by
        unfold parent
        omega
      exact (ih _ above (above.trans inside)).trans
        (ordered index positive inside)

/-- Only the items inside a heap matter. -/
theorem OrderedAround.congr (around : OrderedAround key items len pos) {others : Nat → α}
    (inside : pos < len) (same : ∀ index < len, others index = items index) :
    OrderedAround key others len pos where
  others := by
    intro index positive indexInside differ notBelow
    have above : parent index < len := by
      unfold parent
      omega
    rw [same _ above, same _ indexInside]
    exact around.others index positive indexInside differ notBelow
  across := by
    intro index positive indexInside isBelow posPositive
    have above : parent pos < len := by
      unfold parent
      omega
    rw [same _ above, same _ indexInside]
    exact around.across index positive indexInside isBelow posPositive

/-- Filling a hole that has nothing below it. -/
theorem OrderedAround.fill (around : OrderedAround key items len pos)
    (bottom : len ≤ 2 * pos + 1) :
    OrderedBelow key (Function.update items pos item) len pos where
  others := by
    intro index positive inside differ
    have notBelow : parent index ≠ pos := by
      unfold parent
      omega
    rw [update_of_ne notBelow, update_of_ne differ]
    exact around.others index positive inside differ notBelow
  across := by
    intro index positive inside isBelow
    unfold parent at isBelow
    omega

/-- The item at the end of a heap may be smaller than the one above it. -/
theorem HeapOrdered.extend (ordered : HeapOrdered key items len) :
    OrderedBelow key (Function.update items len item) (len + 1) len where
  others := by
    intro index positive inside differ
    have above : parent index ≠ len := by
      unfold parent
      omega
    rw [update_of_ne above, update_of_ne differ]
    exact ordered index positive (by omega)
  across := by
    intro index positive inside isBelow
    unfold parent at isBelow
    omega

/-- Replacing the first item leaves a heap around it. -/
theorem HeapOrdered.around (ordered : HeapOrdered key items len) {fewer : Nat}
    (shorter : fewer ≤ len) : OrderedAround key (Function.update items 0 item) fewer 0 where
  others := by
    intro index positive inside differ notBelow
    rw [update_of_ne notBelow, update_of_ne differ]
    exact ordered index positive (by omega)
  across := fun _ _ _ _ impossible => absurd impossible (Nat.lt_irrefl 0)

/-- An item that is smaller than the one above it changes places with it. -/
theorem OrderedBelow.moveUp (below : OrderedBelow key (Function.update items pos item) len pos)
    (positive : 0 < pos) (inside : pos < len) (smaller : key item < key (items (parent pos))) :
    OrderedBelow key
      (Function.update (Function.update items pos (items (parent pos))) (parent pos) item) len
      (parent pos) := by
  have above : parent pos < pos := by
    unfold parent
    omega
  -- The items the move leaves alone, in terms of the array before it.
  have edge (index : Nat) (indexPositive : 0 < index) (indexInside : index < len)
      (differ : index ≠ pos) (notBelow : parent index ≠ pos) :
      key (items (parent index)) ≤ key (items index) := by
    have ordered := below.others index indexPositive indexInside differ
    rwa [update_of_ne notBelow, update_of_ne differ] at ordered
  constructor
  · intro index indexPositive indexInside differ
    rw [update_of_ne differ]
    by_cases atPos : index = pos
    · rw [atPos, update_self, update_self]
      exact smaller.le
    · rw [update_of_ne atPos]
      by_cases isBelow : parent index = pos
      · have across := below.across index indexPositive indexInside isBelow positive
        rw [update_of_ne above.ne, update_of_ne atPos] at across
        rw [isBelow, update_of_ne above.ne', update_self]
        exact across
      · have ordered := edge index indexPositive indexInside atPos isBelow
        by_cases sibling : parent index = parent pos
        · rw [sibling, update_self]
          exact smaller.le.trans (sibling ▸ ordered)
        · rw [update_of_ne sibling, update_of_ne isBelow]
          exact ordered
  · intro index indexPositive indexInside isSibling parentPositive
    have higher : parent (parent pos) < parent pos := by
      unfold parent at *
      omega
    have ordered := edge (parent pos) parentPositive (by omega) above.ne (by omega)
    have differ : index ≠ parent pos := by
      unfold parent at *
      omega
    rw [update_of_ne higher.ne, update_of_ne (by omega),
      update_of_ne differ]
    by_cases atPos : index = pos
    · rw [atPos, update_self]
      exact ordered
    · rw [update_of_ne atPos]
      have lower := edge index indexPositive indexInside atPos (by omega)
      exact ordered.trans (isSibling ▸ lower)

/-- The smallest item below a hole moves into it. -/
theorem OrderedAround.moveDown (around : OrderedAround key items len pos) {child : Nat}
    (positive : 0 < child) (inside : child < len) (isBelow : parent child = pos)
    (smallest : ∀ index, 0 < index → index < len → parent index = pos →
      key (items child) ≤ key (items index)) :
    OrderedAround key (Function.update items pos (items child)) len child := by
  have above : pos < child := by
    unfold parent at isBelow
    omega
  constructor
  · intro index indexPositive indexInside differ notBelow
    by_cases atPos : index = pos
    · have higher : parent pos ≠ pos := by
        unfold parent
        omega
      have across := around.across child positive inside isBelow (by omega)
      rw [atPos, update_self, update_of_ne higher]
      exact across
    · rw [update_of_ne atPos]
      by_cases sibling : parent index = pos
      · rw [sibling, update_self]
        exact smallest index indexPositive indexInside sibling
      · rw [update_of_ne sibling]
        exact around.others index indexPositive indexInside atPos sibling
  · intro index indexPositive indexInside isChild _
    have deeper : child < index := by
      unfold parent at isChild
      omega
    rw [isBelow, update_self, update_of_ne (by omega)]
    have ordered := around.others index indexPositive indexInside (by omega) (by omega)
    rwa [isChild] at ordered

/-- An item that is not smaller than the one above it stays. -/
theorem OrderedBelow.stop (below : OrderedBelow key items len pos)
    (last : pos = 0 ∨ key (items (parent pos)) ≤ key (items pos)) : HeapOrdered key items len := by
  intro index positive inside
  by_cases atPos : index = pos
  · rw [atPos]
    exact last.resolve_left (by omega)
  · exact below.others index positive inside atPos

/-- Moving an item up permutes the array with the item in place. -/
theorem siftDown_perm (less : α → α → Bool) (start : Nat) {fuel : Nat} (inside : pos < len) :
    (listing (siftDown less start item fuel items pos) len).Perm
      (listing (Function.update items pos item) len) := by
  induction fuel generalizing items pos with
  | zero => exact List.Perm.refl _
  | succ fuel ih =>
    rw [siftDown]
    split_ifs with positive isLess
    · have above : parent pos < pos := by
        unfold parent
        omega
      exact (ih (above.trans inside)).trans
        (listing_moved above.ne inside (above.trans inside))
    · exact List.Perm.refl _
    · exact List.Perm.refl _

/-- Moving an item up restores the heap. -/
theorem siftDown_ordered (compares : Compares less key present) {fuel : Nat} (enough : pos ≤ fuel)
    (inside : pos < len)
    (allPresent : ∀ entry ∈ listing (Function.update items pos item) len, present entry)
    (below : OrderedBelow key (Function.update items pos item) len pos) :
    HeapOrdered key (siftDown less 0 item fuel items pos) len := by
  induction fuel generalizing items pos with
  | zero => exact below.stop (.inl (by omega))
  | succ fuel ih =>
    have itemPresent : present item :=
      allPresent item (mem_listing.mpr ⟨pos, inside, update_self ..⟩)
    have parentPresent (positive : 0 < pos) :
        present (items (parent pos)) ∧ parent pos < pos := by
      have above : parent pos < pos := by
        unfold parent
        omega
      exact ⟨allPresent _ (mem_listing.mpr ⟨parent pos, above.trans inside,
        update_of_ne above.ne ..⟩), above⟩
    rw [siftDown]
    split_ifs with positive isLess
    · obtain ⟨isPresent, above⟩ := parentPresent positive
      have smaller := (compares _ _ itemPresent isPresent).mp isLess
      have moved := @listing_moved _ items len pos item _ above.ne inside (above.trans inside)
      exact ih (by omega) (above.trans inside)
        (fun entry member => allPresent entry (moved.subset member))
        (below.moveUp positive inside smaller)
    · obtain ⟨isPresent, above⟩ := parentPresent positive
      refine below.stop (.inr ?_)
      rw [update_of_ne above.ne, update_self, ← not_lt,
        ← compares _ _ itemPresent isPresent]
      exact isLess
    · exact below.stop (.inl (by omega))

/-- The child that is chosen is the smallest item below a position. -/
theorem smallerChild_spec (compares : Compares less key present)
    (allPresent : ∀ index < len, index ≠ pos → present (items index)) (more : 2 * pos + 1 < len) :
    0 < smallerChild less len items pos ∧ smallerChild less len items pos < len ∧
      parent (smallerChild less len items pos) = pos ∧
      ∀ index, 0 < index → index < len → parent index = pos →
        key (items (smallerChild less len items pos)) ≤ key (items index) := by
  have two (index : Nat) (positive : 0 < index) (isBelow : parent index = pos) :
      index = 2 * pos + 1 ∨ index = 2 * pos + 2 := by
    unfold parent at isBelow
    omega
  have leftPresent : present (items (2 * pos + 1)) := allPresent _ more (by omega)
  unfold smallerChild
  split_ifs with isRight
  · rw [Bool.and_eq_true, decide_eq_true_eq, Bool.not_eq_true'] at isRight
    obtain ⟨inside, notLess⟩ := isRight
    have rightPresent : present (items (2 * pos + 2)) := allPresent _ inside (by omega)
    have smaller : key (items (2 * pos + 2)) ≤ key (items (2 * pos + 1)) := by
      rw [← not_lt, ← compares _ _ leftPresent rightPresent, notLess]
      decide
    refine ⟨by omega, inside, by unfold parent; omega, fun index positive _ isBelow => ?_⟩
    rcases two index positive isBelow with rfl | rfl
    · exact smaller
    · exact le_rfl
  · refine ⟨by omega, more, by unfold parent; omega, fun index positive inside isBelow => ?_⟩
    rcases two index positive isBelow with rfl | rfl
    · exact le_rfl
    · have rightPresent : present (items (2 * pos + 2)) := allPresent _ inside (by omega)
      have isLess : less (items (2 * pos + 1)) (items (2 * pos + 2)) = true := by
        simpa [inside] using isRight
      exact ((compares _ _ leftPresent rightPresent).mp isLess).le

/-- Moving the smaller children up brings the hole to the bottom. -/
theorem bubbleUp_spec (compares : Compares less key present) {fuel : Nat}
    (enough : len ≤ fuel + pos) (inside : pos < len)
    (allPresent : ∀ index < len, index ≠ pos → present (items index))
    (around : OrderedAround key items len pos) {after : Nat → α} {last : Nat}
    (bubbled : bubbleUp less len fuel items pos = (after, last)) :
    OrderedAround key after len last ∧ last < len ∧ len ≤ 2 * last + 1 ∧
      ∀ item, (listing (Function.update after last item) len).Perm
        (listing (Function.update items pos item) len) := by
  induction fuel generalizing items pos with
  | zero => omega
  | succ fuel ih =>
    rw [bubbleUp] at bubbled
    split_ifs at bubbled with more
    · obtain ⟨positive, childInside, isBelow, smallest⟩ :=
        smallerChild_spec compares allPresent more
      generalize smallerChild less len items pos = child at *
      have deeper : pos < child := by
        unfold parent at isBelow
        omega
      have stillPresent : ∀ index < len, index ≠ child →
          present (Function.update items pos (items child) index) := by
        intro index indexInside _
        by_cases atPos : index = pos
        · rw [atPos, update_self]
          exact allPresent child childInside (by omega)
        · rw [update_of_ne atPos]
          exact allPresent index indexInside atPos
      obtain ⟨ordered, lastInside, bottom, perm⟩ := ih (by omega) childInside
        stillPresent (around.moveDown positive childInside isBelow smallest) bubbled
      exact ⟨ordered, lastInside, bottom, fun item =>
        (perm item).trans (listing_moved (by omega) inside childInside)⟩
    · obtain ⟨rfl, rfl⟩ := Prod.mk.inj bubbled
      exact ⟨around, inside, by omega, fun _ => List.Perm.refl _⟩

end Order

end MultiPython.Logic.SiftHeap
