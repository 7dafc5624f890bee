import Mathlib

/-!
# Sorting lists

`mp_quicksort` of `py/objlist.c`, on the cells between two pointers. A pointer is an integer, since
one of them begins before the first cell; a cell that is read or stored outside of the two pointers
that a turn of the loop begins with has no result. The same code sorts in reverse, with the
comparison the other way around.
-/

namespace MultiPython.Obj

open List Option

variable {α κ : Type}

section Code

variable (key : α → κ) (less : κ → κ → Bool) (binopLessResult : Bool)

/-- Read a cell between `head` and `tail`. -/
def cell (head tail : Int) (items : List α) (p : Int) : Option α :=
  if head ≤ p ∧ p ≤ tail ∧ 0 ≤ p then items[p.toNat]? else none

/-- Exchange two cells between `head` and `tail`. -/
def exchange (head tail : Int) (items : List α) (p q : Int) : Option (List α) := do
  let x ← cell head tail items p
  let y ← cell head tail items q
  some ((items.set p.toNat y).set q.toNat x)

/-- The scan of `h`, with the steps that are left up to `t`. -/
def scanUp (head tail : Int) (items : List α) (t : Int) (v : κ) : Nat → Int → Option Int
  | 0, _ => none
  | steps + 1, h => do
      let h := h + 1
      if h < t then
        let x ← cell head tail items h
        if less (key x) v = binopLessResult then scanUp head tail items t v steps h else some h
      else some h

/-- The scan of `t`, with the steps that are left down to `h`. -/
def scanDown (head tail : Int) (items : List α) (h : Int) (v : κ) : Nat → Int → Option Int
  | 0, _ => none
  | steps + 1, t => do
      let t := t - 1
      if h < t then
        let x ← cell head tail items t
        if less v (key x) = binopLessResult then scanDown head tail items h v steps t else some t
      else some t

/-- The variables of the loop that splits the cells. -/
structure Split (α : Type) where
  items : List α
  h : Int
  t : Int

/-- The loop that splits the cells by the key `v` of the last one. -/
def partitionLoop (head tail : Int) (v : κ) : Nat → Split α → Option (Split α)
  | 0, _ => none
  | rounds + 1, s => do
      let h ← scanUp key less binopLessResult head tail s.items s.t v (s.t - s.h).toNat s.h
      let t ← scanDown key less binopLessResult head tail s.items h v (s.t - h + 1).toNat s.t
      if h ≥ t then some ⟨s.items, h, t⟩
      else
        let items ← exchange head tail s.items h t
        partitionLoop head tail v rounds ⟨items, h, t⟩

/-- `mp_quicksort`. The smaller part is sorted by a call, the other one by the next turn of the
loop. -/
def mpQuicksort : Nat → List α → Int → Int → Option (List α)
  | 0, _, _, _ => none
  | turns + 1, items, head, tail =>
    if head < tail then do
      let pivot ← cell head tail items tail
      let s ← partitionLoop key less binopLessResult head tail (key pivot) (tail - head).toNat
        ⟨items, head - 1, tail⟩
      let items ← exchange head tail s.items s.h tail
      if s.t - head < tail - s.h - 1 then
        let items ← mpQuicksort turns items head s.t
        mpQuicksort turns items (s.h + 1) tail
      else
        let items ← mpQuicksort turns items (s.h + 1) tail
        mpQuicksort turns items head s.t
    else some items

/-- `mp_obj_list_sort`. Without a `key` the items are compared themselves. -/
def mpObjListSort (reverse : Bool) (items : List α) : Option (List α) :=
  if items.length > 1 then
    mpQuicksort key less (!reverse) items.length items 0 (items.length - 1)
  else some items

end Code

/-! ## Orders -/

/-- The order that the keys are left in: no key is followed by a lesser one, or, in reverse, by a
greater one. -/
def InOrder (less : κ → κ → Bool) (binopLessResult : Bool) (x y : κ) : Prop :=
  if binopLessResult then less y x = false else less x y = false

section Order

variable {less : κ → κ → Bool} {binopLessResult : Bool} {x y z v : κ}
  [order : IsStrictWeakOrder κ fun x y => less x y = true]

theorem less_asymm (isLess : less x y = true) : less y x = false := by
  apply Bool.eq_false_iff.mpr
  intro isMore
  exact order.irrefl x (order.trans x y x isLess isMore)

theorem less_or_less (isLess : less x z = true) (y : κ) : less x y = true ∨ less y z = true := by
  by_contra neither
  obtain ⟨notFirst, notSecond⟩ := not_or.mp neither
  have notMore : ¬ less y x = true := fun isMore => notSecond (order.trans y x z isMore isLess)
  have notAbove : ¬ less z y = true := fun isAbove => notFirst (order.trans x z y isLess isAbove)
  exact (order.incomp_trans x y z ⟨notFirst, notMore⟩ ⟨notSecond, notAbove⟩).1 isLess

theorem inOrder_refl (x : κ) : InOrder less binopLessResult x x := by
  have irreflexive : less x x = false := Bool.eq_false_iff.mpr (order.irrefl x)
  unfold InOrder
  split_ifs
  · exact irreflexive
  · exact irreflexive

theorem InOrder.trans (first : InOrder less binopLessResult x y)
    (second : InOrder less binopLessResult y z) : InOrder less binopLessResult x z := by
  unfold InOrder at *
  cases binopLessResult with
  | true =>
    simp only [if_true] at *
    apply Bool.eq_false_iff.mpr
    intro isLess
    rcases less_or_less isLess y with below | below
    · simp [second] at below
    · simp [first] at below
  | false =>
    simp only [Bool.false_eq_true, if_false] at *
    apply Bool.eq_false_iff.mpr
    intro isLess
    rcases less_or_less isLess y with below | below
    · simp [first] at below
    · simp [second] at below

theorem inOrder_of_eq (passed : less x v = binopLessResult) : InOrder less binopLessResult x v := by
  unfold InOrder
  split_ifs with forwards
  · exact less_asymm (passed.trans forwards)
  · exact passed.trans (Bool.eq_false_iff.mpr forwards)

theorem inOrder_of_ne (stopped : ¬ less x v = binopLessResult) :
    InOrder less binopLessResult v x := by
  unfold InOrder
  split_ifs with forwards
  · rw [forwards] at stopped
    exact Bool.eq_false_iff.mpr stopped
  · rw [Bool.eq_false_iff.mpr forwards] at stopped
    exact less_asymm (Bool.eq_true_of_not_eq_false stopped)

end Order

/-! ## Cells -/

/-- A property of the items from one pointer to another one. -/
def AllBetween (low high : Int) (items : List α) (holds : α → Prop) : Prop :=
  ∀ p : Nat, low ≤ p → (p : Int) ≤ high → ∀ x, items[p]? = some x → holds x

/-- The items between two pointers in order. -/
def OrderedBetween (related : α → α → Prop) (low high : Int) (items : List α) : Prop :=
  ∀ p q : Nat, low ≤ p → p < q → (q : Int) ≤ high → ∀ x y, items[p]? = some x →
    items[q]? = some y → related x y

/-- The items between two pointers have changed their places. -/
structure Rearranges (head tail : Int) (before after : List α) : Prop where
  perm : after.Perm before
  outside : ∀ p : Nat, (p < head ∨ tail < p) → after[p]? = before[p]?
  inside : ∀ holds, AllBetween head tail before holds → AllBetween head tail after holds

section Cells

variable {items before middle after : List α} {head tail low high p q : Int} {holds : α → Prop}
  {related : α → α → Prop}

theorem cell_eq (above : head ≤ p) (below : p ≤ tail) (positive : 0 ≤ head)
    (inside : tail < items.length) :
    ∃ x, cell head tail items p = some x ∧ items[p.toNat]? = some x := by
  have bound : p.toNat < items.length := by omega
  exact ⟨items[p.toNat], by rw [cell, if_pos ⟨above, below, by omega⟩, getElem?_eq_getElem bound],
    getElem?_eq_getElem bound⟩

theorem AllBetween.mono (all : AllBetween low high items holds) (above : low ≤ head)
    (below : tail ≤ high) : AllBetween head tail items holds := by
  intro p isAbove isBelow
  exact all p (by omega) (by omega)

theorem AllBetween.congr (all : AllBetween low high before holds)
    (same : ∀ p : Nat, low ≤ p → (p : Int) ≤ high → after[p]? = before[p]?) :
    AllBetween low high after holds := by
  intro p isAbove isBelow x isHere
  exact all p isAbove isBelow x ((same p isAbove isBelow).symm.trans isHere)

/-- A property of the items up to a pointer and of the item behind it. -/
theorem AllBetween.snoc (all : AllBetween low high items holds)
    (next : ∀ x, items[(high + 1).toNat]? = some x → holds x) :
    AllBetween low (high + 1) items holds := by
  intro p isAbove isBelow x isHere
  by_cases isLast : (p : Int) = high + 1
  · apply next
    rwa [← isLast, Int.toNat_natCast]
  · exact all p isAbove (by omega) x isHere

theorem AllBetween.cons (all : AllBetween low high items holds)
    (previous : ∀ x, items[(low - 1).toNat]? = some x → holds x) :
    AllBetween (low - 1) high items holds := by
  intro p isAbove isBelow x isHere
  by_cases isFirst : (p : Int) = low - 1
  · apply previous
    rwa [← isFirst, Int.toNat_natCast]
  · exact all p (by omega) isBelow x isHere

theorem OrderedBetween.congr (ordered : OrderedBetween related low high before)
    (same : ∀ p : Nat, low ≤ p → (p : Int) ≤ high → after[p]? = before[p]?) :
    OrderedBetween related low high after := by
  intro p q isAbove isBehind isBelow x y isFirst isSecond
  rw [same p isAbove (by omega)] at isFirst
  rw [same q (by omega) isBelow] at isSecond
  exact ordered p q isAbove isBehind isBelow x y isFirst isSecond

theorem Rearranges.refl (head tail : Int) (items : List α) : Rearranges head tail items items :=
  ⟨List.Perm.refl _, fun _ _ => rfl, fun _ all => all⟩

theorem Rearranges.trans (first : Rearranges head tail before middle)
    (second : Rearranges head tail middle after) : Rearranges head tail before after :=
  ⟨second.perm.trans first.perm, fun p apart => (second.outside p apart).trans (first.outside p apart),
    fun holds all => second.inside holds (first.inside holds all)⟩

theorem Rearranges.length (rearranges : Rearranges head tail before after) :
    after.length = before.length := rearranges.perm.length_eq

/-- Items that change their places between two pointers do so between pointers further apart. -/
theorem Rearranges.widen (rearranges : Rearranges low high before after) (above : head ≤ low)
    (below : high ≤ tail) : Rearranges head tail before after := by
  refine ⟨rearranges.perm, fun p apart => rearranges.outside p (by omega), ?_⟩
  intro holds all p isAbove isBelow x isHere
  by_cases isInside : low ≤ p ∧ (p : Int) ≤ high
  · exact rearranges.inside holds (all.mono above below) p isInside.1 isInside.2 x isHere
  · rw [rearranges.outside p (by omega)] at isHere
    exact all p isAbove isBelow x isHere

/-- Items apart from the ones that change their places keep their properties and their order. -/
theorem Rearranges.apart (rearranges : Rearranges low high before after)
    (apart : tail < low ∨ high < head) (p : Nat) (above : head ≤ p) (below : (p : Int) ≤ tail) :
    after[p]? = before[p]? := by
  apply rearranges.outside
  omega

/-- What an exchange leaves in each cell. -/
theorem exchange_spec (above : head ≤ p) (ordered : p ≤ q) (below : q ≤ tail) (positive : 0 ≤ head)
    (inside : tail < items.length) :
    ∃ x y after, items[p.toNat]? = some x ∧ items[q.toNat]? = some y ∧
      exchange head tail items p q = some after ∧ Rearranges head tail items after ∧
      after[p.toNat]? = some y ∧ after[q.toNat]? = some x ∧
      ∀ k : Nat, (k : Int) ≠ p → (k : Int) ≠ q → after[k]? = items[k]? := by
  obtain ⟨x, readX, isX⟩ := cell_eq above (ordered.trans below) positive inside
  obtain ⟨y, readY, isY⟩ := cell_eq (above.trans ordered) below positive inside
  have pInside : p.toNat < items.length := by omega
  have qInside : q.toNat < items.length := by omega
  have others (k : Nat) (notP : (k : Int) ≠ p) (notQ : (k : Int) ≠ q) :
      ((items.set p.toNat y).set q.toNat x)[k]? = items[k]? := by
    rw [getElem?_set_ne (by omega), getElem?_set_ne (by omega)]
  have atQ : ((items.set p.toNat y).set q.toNat x)[q.toNat]? = some x := by
    rw [getElem?_set_self (by rw [length_set]; exact qInside)]
  have atP : ((items.set p.toNat y).set q.toNat x)[p.toNat]? = some y := by
    by_cases same : q.toNat = p.toNat
    · rw [same] at isY ⊢
      rw [getElem?_set_self (by rw [length_set]; exact pInside), ← isX, isY]
    · rw [getElem?_set_ne same, getElem?_set_self pInside]
  refine ⟨x, y, _, isX, isY, by rw [exchange, readX, readY]; rfl, ⟨?_, ?_, ?_⟩, atP, atQ, others⟩
  · rw [getElem?_eq_getElem pInside, some.injEq] at isX
    rw [getElem?_eq_getElem qInside, some.injEq] at isY
    rw [← isX, ← isY]
    exact set_set_perm pInside qInside
  · intro k apart
    exact others k (by omega) (by omega)
  · intro holds all k isAbove isBelow z isHere
    by_cases isP : (k : Int) = p
    · obtain rfl : k = p.toNat := by omega
      rw [atP, some.injEq] at isHere
      exact all q.toNat (by omega) (by omega) z (isHere ▸ isY)
    · by_cases isQ : (k : Int) = q
      · obtain rfl : k = q.toNat := by omega
        rw [atQ, some.injEq] at isHere
        exact all p.toNat (by omega) (by omega) z (isHere ▸ isX)
      · rw [others k isP isQ] at isHere
        exact all k isAbove isBelow z isHere

end Cells

/-! ## Splitting -/

section Split

variable {key : α → κ} {less : κ → κ → Bool} {binopLessResult : Bool} {items : List α}
  {head tail h t : Int} {v : κ} {steps rounds : Nat}
  [order : IsStrictWeakOrder κ fun x y => less x y = true]

/-- The scan of `h` ends at `t`, or at an item that belongs behind the pivot. -/
theorem scanUp_spec (above : head ≤ h + 1) (smaller : h < t) (below : t ≤ tail)
    (positive : 0 ≤ head) (inside : tail < items.length) (enough : t - h ≤ steps)
    (low : AllBetween head h items fun x => InOrder less binopLessResult (key x) v) :
    ∃ next, scanUp key less binopLessResult head tail items t v steps h = some next ∧
      h < next ∧ next ≤ t ∧
      AllBetween head (next - 1) items (fun x => InOrder less binopLessResult (key x) v) ∧
      (next < t → ∀ x, items[next.toNat]? = some x → InOrder less binopLessResult v (key x)) := by
  induction steps generalizing h with
  | zero => omega
  | succ steps ih =>
    rw [scanUp]
    by_cases isInside : h + 1 < t
    · obtain ⟨x, readX, isX⟩ := cell_eq above (by omega : h + 1 ≤ tail) positive inside
      simp only [if_pos isInside, readX, bind_eq_bind, bind_some]
      split_ifs with passed
      · have longer : AllBetween head (h + 1) items
            fun x => InOrder less binopLessResult (key x) v := by
          apply low.snoc
          intro y isY
          rw [isX, some.injEq] at isY
          rw [← isY]
          exact inOrder_of_eq passed
        obtain ⟨next, isNext, isAbove, rest⟩ :=
          ih (by omega) isInside (by omega) longer
        exact ⟨next, isNext, by omega, rest⟩
      · refine ⟨h + 1, rfl, by omega, by omega, by rwa [Int.add_sub_cancel], ?_⟩
        intro _ y isY
        rw [isX, some.injEq] at isY
        rw [← isY]
        exact inOrder_of_ne passed
    · simp only [if_neg isInside]
      exact ⟨h + 1, rfl, by omega, by omega, by rwa [Int.add_sub_cancel],
        fun less => absurd less isInside⟩

/-- The scan of `t` ends at `h` or below, or at an item that belongs before the pivot. -/
theorem scanDown_spec (above : head ≤ h) (smaller : h ≤ t) (below : t ≤ tail)
    (positive : 0 ≤ head) (inside : tail < items.length) (enough : t - h + 1 ≤ steps)
    (high : AllBetween t tail items fun x => InOrder less binopLessResult v (key x)) :
    ∃ next, scanDown key less binopLessResult head tail items h v steps t = some next ∧
      h - 1 ≤ next ∧ next < t ∧
      AllBetween (next + 1) tail items (fun x => InOrder less binopLessResult v (key x)) ∧
      (h < next → ∀ x, items[next.toNat]? = some x → InOrder less binopLessResult (key x) v) := by
  induction steps generalizing t with
  | zero => omega
  | succ steps ih =>
    rw [scanDown]
    by_cases isInside : h < t - 1
    · obtain ⟨x, readX, isX⟩ := cell_eq (by omega : head ≤ t - 1) (by omega) positive inside
      simp only [if_pos isInside, readX, bind_eq_bind, bind_some]
      split_ifs with passed
      · have longer : AllBetween (t - 1) tail items
            fun x => InOrder less binopLessResult v (key x) := by
          apply high.cons
          intro y isY
          rw [isX, some.injEq] at isY
          rw [← isY]
          exact inOrder_of_eq passed
        obtain ⟨next, isNext, isAbove, isBelow, rest⟩ :=
          ih (by omega) (by omega) (by omega) longer
        exact ⟨next, isNext, isAbove, by omega, rest⟩
      · refine ⟨t - 1, rfl, by omega, by omega, by rwa [Int.sub_add_cancel], ?_⟩
        intro _ y isY
        rw [isX, some.injEq] at isY
        rw [← isY]
        exact inOrder_of_ne passed
    · simp only [if_neg isInside]
      exact ⟨t - 1, rfl, by omega, by omega, by rwa [Int.sub_add_cancel],
        fun less => absurd less isInside⟩

/-- What the loop has reached: the items up to `h` belong before the pivot, those from `t` on behind
it, and the pivot is the last one. -/
structure Splits (key : α → κ) (less : κ → κ → Bool) (binopLessResult : Bool) (head tail : Int)
    (v : κ) (s : Split α) : Prop where
  above : head ≤ s.h + 1
  smaller : s.h < s.t
  below : s.t ≤ tail
  inside : tail < s.items.length
  low : AllBetween head s.h s.items fun x => InOrder less binopLessResult (key x) v
  high : AllBetween s.t tail s.items fun x => InOrder less binopLessResult v (key x)

theorem scans_spec {s : Split α} (positive : 0 ≤ head)
    (splits : Splits key less binopLessResult head tail v s) :
    ∃ h t, scanUp key less binopLessResult head tail s.items s.t v (s.t - s.h).toNat s.h = some h ∧
      scanDown key less binopLessResult head tail s.items h v (s.t - h + 1).toNat s.t = some t ∧
      s.h < h ∧ h ≤ s.t ∧ h - 1 ≤ t ∧ t < s.t ∧
      AllBetween head (h - 1) s.items (fun x => InOrder less binopLessResult (key x) v) ∧
      AllBetween (t + 1) tail s.items (fun x => InOrder less binopLessResult v (key x)) ∧
      (∀ x, s.items[h.toNat]? = some x → InOrder less binopLessResult v (key x)) ∧
      (h < t → ∀ x, s.items[t.toNat]? = some x → InOrder less binopLessResult (key x) v) := by
  have above := splits.above
  have below := splits.below
  have smaller := splits.smaller
  obtain ⟨h, isH, past, upTo, low, stopped⟩ := scanUp_spec above smaller below positive
    splits.inside (by omega : s.t - s.h ≤ (s.t - s.h).toNat) splits.low
  obtain ⟨t, isT, downTo, before, high, stoppedAt⟩ := scanDown_spec (by omega : head ≤ h) upTo below
    positive splits.inside (by omega : s.t - h + 1 ≤ (s.t - h + 1).toNat) splits.high
  refine ⟨h, t, isH, isT, past, upTo, downTo, before, low, high, ?_, stoppedAt⟩
  intro x isHere
  by_cases isInside : h < s.t
  · exact stopped isInside x isHere
  · exact splits.high h.toNat (by omega) (by omega) x isHere

/-- The loop ends with `t` at `h` or just before it, after exchanges before the last item. -/
theorem partitionLoop_spec {s : Split α} (positive : 0 ≤ head)
    (splits : Splits key less binopLessResult head tail v s) (enough : s.t - s.h ≤ 2 * rounds) :
    ∃ done, partitionLoop key less binopLessResult head tail v rounds s = some done ∧
      Rearranges head tail s.items done.items ∧
      done.items[tail.toNat]? = s.items[tail.toNat]? ∧
      head ≤ done.h ∧ done.h ≤ tail ∧ done.h - 1 ≤ done.t ∧ done.t ≤ done.h ∧ done.t < tail ∧
      AllBetween head (done.h - 1) done.items (fun x => InOrder less binopLessResult (key x) v) ∧
      AllBetween done.h tail done.items (fun x => InOrder less binopLessResult v (key x)) := by
  have above := splits.above
  have below := splits.below
  have smaller := splits.smaller
  have inside := splits.inside
  induction rounds generalizing s with
  | zero => omega
  | succ rounds ih =>
    obtain ⟨h, t, isH, isT, past, upTo, downTo, before, low, high, atH, atT⟩ :=
      scans_spec positive splits
    rw [partitionLoop]
    simp only [isH, isT, bind_eq_bind, bind_some]
    by_cases ended : h ≥ t
    · rw [if_pos ended]
      have fromHead : head ≤ h := by omega
      have toTail : h ≤ tail := by omega
      have beforeTail : t < tail := by omega
      refine ⟨⟨s.items, h, t⟩, rfl, Rearranges.refl _ _ _, rfl, fromHead, toTail, downTo, ended,
        beforeTail, low, ?_⟩
      by_cases isBelow : t = h - 1
      · rwa [isBelow, Int.sub_add_cancel] at high
      · obtain rfl : t = h := by omega
        have whole := high.cons (by rwa [Int.add_sub_cancel])
        rwa [Int.add_sub_cancel] at whole
    · rw [if_neg ended]
      obtain ⟨x, y, after, isX, isY, exchanged, rearranges, newH, newT, others⟩ := exchange_spec
        (by omega : head ≤ h) (by omega : h ≤ t) (by omega : t ≤ tail) positive inside
      rw [exchanged, bind_some]
      have length := rearranges.length
      have lowAfter : AllBetween head h after
          fun x => InOrder less binopLessResult (key x) v := by
        have unmoved := low.congr fun k _ isBelow => others k (by omega) (by omega)
        have longer := unmoved.snoc (by
          rw [Int.sub_add_cancel, newH]
          rintro z isZ
          cases isZ
          exact atT (by omega) y isY)
        rwa [Int.sub_add_cancel] at longer
      have highAfter : AllBetween t tail after
          fun x => InOrder less binopLessResult v (key x) := by
        have unmoved := high.congr fun k isAbove _ => others k (by omega) (by omega)
        have longer := unmoved.cons (by
          rw [Int.add_sub_cancel, newT]
          rintro z isZ
          cases isZ
          exact atH x isX)
        rwa [Int.add_sub_cancel] at longer
      obtain ⟨done, isDone, moved, last, rest⟩ := @ih ⟨after, h, t⟩
        ⟨by simp only; omega, by simp only; omega, by simp only; omega, by simp only; omega,
          lowAfter, highAfter⟩ (by simp only; omega) (by simp only; omega) (by simp only; omega)
        (by simp only; omega) (by simp only; omega)
      refine ⟨done, isDone, rearranges.trans moved, ?_, rest⟩
      rw [last]
      exact others tail.toNat (by omega) (by omega)

end Split

/-! ## Sorting -/

/-- The items between two pointers have been put in order. -/
structure Sorts (related : α → α → Prop) (head tail : Int) (before after : List α) : Prop where
  rearranges : Rearranges head tail before after
  ordered : OrderedBetween related head tail after

section Sorting

variable {key : α → κ} {less : κ → κ → Bool} {binopLessResult : Bool} {items before after : List α}
  {head tail h t : Int} {v : κ} {turns : Nat}
  [order : IsStrictWeakOrder κ fun x y => less x y = true]

/-- Two parts in order, of which one belongs before the pivot and the other one behind it. The pivot
is in the first part or between the two. -/
theorem ordered_of_parts
    (first : OrderedBetween (fun x y => InOrder less binopLessResult (key x) (key y)) head t items)
    (second : OrderedBetween (fun x y => InOrder less binopLessResult (key x) (key y)) (h + 1) tail
      items)
    (low : AllBetween head h items fun x => InOrder less binopLessResult (key x) v)
    (high : AllBetween (t + 1) tail items fun x => InOrder less binopLessResult v (key x)) :
    OrderedBetween (fun x y => InOrder less binopLessResult (key x) (key y)) head tail items := by
  intro p q isAbove isBehind isBelow x y isX isY
  by_cases qFirst : (q : Int) ≤ t
  · exact first p q isAbove isBehind qFirst x y isX isY
  · by_cases pSecond : h + 1 ≤ p
    · exact second p q pSecond isBehind isBelow x y isX isY
    · have before := low p isAbove (by omega) x isX
      have behind := high q (by omega) isBelow y isY
      exact before.trans behind

/-- What is known about the two parts stays true when one of them is sorted, and then the other
one. -/
theorem sorts_of_parts {middle : List α} (upTo : t ≤ h) (fromHead : head ≤ h)
    (toTail : t < tail)
    (low : AllBetween head h before fun x => InOrder less binopLessResult (key x) v)
    (high : AllBetween (t + 1) tail before fun x => InOrder less binopLessResult v (key x))
    (parts : (Sorts (fun x y => InOrder less binopLessResult (key x) (key y)) head t before middle ∧
        Sorts (fun x y => InOrder less binopLessResult (key x) (key y)) (h + 1) tail middle after) ∨
      (Sorts (fun x y => InOrder less binopLessResult (key x) (key y)) (h + 1) tail before middle ∧
        Sorts (fun x y => InOrder less binopLessResult (key x) (key y)) head t middle after)) :
    Sorts (fun x y => InOrder less binopLessResult (key x) (key y)) head tail before after := by
  rcases parts with ⟨first, second⟩ | ⟨second, first⟩
  · have firstWide := first.rearranges.widen le_rfl upTo
    have secondWide := second.rearranges.widen (by omega : t + 1 ≤ h + 1) le_rfl
    have lowMiddle := firstWide.inside _ low
    have highMiddle := high.congr (first.rearranges.apart (.inr (by omega)))
    constructor
    · exact (first.rearranges.widen le_rfl toTail.le).trans
        (second.rearranges.widen (by omega) le_rfl)
    · apply ordered_of_parts
      · exact first.ordered.congr (second.rearranges.apart (.inl (by omega)))
      · exact second.ordered
      · exact lowMiddle.congr (second.rearranges.apart (.inl (by omega)))
      · exact secondWide.inside _ highMiddle
  · have firstWide := first.rearranges.widen le_rfl upTo
    have secondWide := second.rearranges.widen (by omega : t + 1 ≤ h + 1) le_rfl
    have highMiddle := secondWide.inside _ high
    have lowMiddle := low.congr (second.rearranges.apart (.inl (by omega)))
    constructor
    · exact (second.rearranges.widen (by omega) le_rfl).trans
        (first.rearranges.widen le_rfl toTail.le)
    · apply ordered_of_parts
      · exact first.ordered
      · exact second.ordered.congr (first.rearranges.apart (.inr (by omega)))
      · exact firstWide.inside _ lowMiddle
      · exact highMiddle.congr (first.rearranges.apart (.inr (by omega)))

/-- The items that the loop has split, with the pivot in its place. -/
theorem split_spec (positive : 0 ≤ head) (isLonger : head < tail) (inside : tail < items.length) :
    ∃ pivot s after, cell head tail items tail = some pivot ∧
      partitionLoop key less binopLessResult head tail (key pivot) (tail - head).toNat
        ⟨items, head - 1, tail⟩ = some s ∧
      exchange head tail s.items s.h tail = some after ∧ Rearranges head tail items after ∧
      head ≤ s.h ∧ s.h ≤ tail ∧ s.h - 1 ≤ s.t ∧ s.t ≤ s.h ∧ s.t < tail ∧
      AllBetween head s.h after (fun x => InOrder less binopLessResult (key x) (key pivot)) ∧
      AllBetween (s.t + 1) tail after
        (fun x => InOrder less binopLessResult (key pivot) (key x)) := by
  obtain ⟨pivot, readPivot, isPivot⟩ := cell_eq isLonger.le le_rfl positive inside
  have splits : Splits key less binopLessResult head tail (key pivot)
      ⟨items, head - 1, tail⟩ := by
    refine ⟨by simp only; omega, by simp only; omega, le_rfl, inside, ?_, ?_⟩
    · intro p isAbove isBelow
      simp only at isBelow
      omega
    · intro p isAbove isBelow x isHere
      obtain rfl : p = tail.toNat := by simp only at isAbove; omega
      rw [isPivot, some.injEq] at isHere
      rw [← isHere]
      exact inOrder_refl (key pivot)
  obtain ⟨s, split, moved, last, fromHead, toTail, near, upTo, beforeTail, low, high⟩ :=
    partitionLoop_spec positive splits (by omega : tail - (head - 1) ≤ 2 * (tail - head).toNat)
  have insideSplit : tail < s.items.length := by
    rw [moved.length]
    exact inside
  obtain ⟨x, y, after, isX, isY, exchanged, rearranges, newH, newTail, others⟩ :=
    exchange_spec fromHead toTail le_rfl positive insideSplit
  have yIsPivot : y = pivot := by
    rw [last, isPivot] at isY
    exact (some.inj isY).symm
  refine ⟨pivot, s, after, readPivot, split, exchanged, moved.trans rearranges, fromHead, toTail,
    near, upTo, beforeTail, ?_, ?_⟩
  · have unmoved := low.congr fun k _ isBelow => others k (by omega) (by omega)
    have longer := unmoved.snoc (by
      rw [Int.sub_add_cancel, newH]
      rintro z isZ
      cases isZ
      rw [yIsPivot]
      exact inOrder_refl (key pivot))
    rwa [Int.sub_add_cancel] at longer
  · intro p isAbove isBelow z isHere
    by_cases isH : (p : Int) = s.h
    · obtain rfl : p = s.h.toNat := by omega
      rw [newH, some.injEq] at isHere
      rw [← isHere, yIsPivot]
      exact inOrder_refl (key pivot)
    · by_cases isTail : (p : Int) = tail
      · obtain rfl : p = tail.toNat := by omega
        rw [newTail, some.injEq] at isHere
        rw [← isHere]
        exact high s.h.toNat (by omega) (by omega) x isX
      · rw [others p isH isTail] at isHere
        exact high p (by omega) isBelow z isHere

/-- `mp_quicksort` ends, and sorts the items between its pointers. -/
theorem mpQuicksort_spec (positive : 0 ≤ head) (inside : tail < items.length)
    (enough : tail - head < turns) (some_ : 0 < turns) :
    ∃ sorted, mpQuicksort key less binopLessResult turns items head tail = some sorted ∧
      Sorts (fun x y => InOrder less binopLessResult (key x) (key y)) head tail items sorted := by
  induction turns generalizing items head tail with
  | zero => omega
  | succ turns ih =>
    rw [mpQuicksort]
    by_cases isLonger : head < tail
    · obtain ⟨pivot, s, after, isPivot, split, exchanged, rearranges, fromHead, toTail, near, upTo,
        beforeTail, low, high⟩ :=
          @split_spec α κ key less binopLessResult items head tail order positive isLonger inside
      have length := rearranges.length
      simp only [if_pos isLonger, isPivot, split, exchanged, bind_eq_bind, bind_some]
      split_ifs
      · obtain ⟨middle, isMiddle, first⟩ := @ih after head s.t positive
          (by omega) (by omega) (by omega)
        have middleLength := first.rearranges.length
        obtain ⟨sorted, isSorted, second⟩ := @ih middle (s.h + 1) tail (by omega)
          (by omega) (by omega) (by omega)
        rw [isMiddle, bind_some, isSorted]
        have sorts := sorts_of_parts upTo fromHead beforeTail low high (.inl ⟨first, second⟩)
        exact ⟨sorted, rfl, rearranges.trans sorts.rearranges, sorts.ordered⟩
      · obtain ⟨middle, isMiddle, second⟩ := @ih after (s.h + 1) tail (by omega)
          (by omega) (by omega) (by omega)
        have middleLength := second.rearranges.length
        obtain ⟨sorted, isSorted, first⟩ := @ih middle head s.t positive
          (by omega) (by omega) (by omega)
        rw [isMiddle, bind_some, isSorted]
        have sorts := sorts_of_parts upTo fromHead beforeTail low high (.inr ⟨second, first⟩)
        exact ⟨sorted, rfl, rearranges.trans sorts.rearranges, sorts.ordered⟩
    · rw [if_neg isLonger]
      refine ⟨items, rfl, Rearranges.refl _ _ _, ?_⟩
      intro p q isAbove isBehind isBelow
      omega

/-- Sorting some cells of a list leaves the others as they are, and sorting the list leaves the same
items with keys that do not decrease, or do not increase in reverse. Every cell that is read or stored
is between the two pointers. -/
theorem mpObjListSort_sorts (key : α → κ) (less : κ → κ → Bool)
    [IsStrictWeakOrder κ fun x y => less x y = true] (reverse : Bool) (items : List α) :
    (∀ head tail : Int, 0 ≤ head → tail < items.length →
      ∃ sorted, mpQuicksort key less (!reverse) (items.length + 1) items head tail = some sorted ∧
        sorted.Perm items ∧ (∀ p : Nat, (p < head ∨ tail < p) → sorted[p]? = items[p]?) ∧
        OrderedBetween (fun x y => InOrder less (!reverse) (key x) (key y)) head tail sorted) ∧
    ∃ sorted, mpObjListSort key less reverse items = some sorted ∧ sorted.Perm items ∧
      sorted.Pairwise fun x y =>
        if reverse then less (key x) (key y) = false else less (key y) (key x) = false := by
  constructor
  · intro head tail positive inside
    obtain ⟨sorted, isSorted, sorts⟩ := @mpQuicksort_spec α κ key less (!reverse) items head tail
      (items.length + 1) _ positive inside (by omega) (by omega)
    exact ⟨sorted, isSorted, sorts.rearranges.perm, sorts.rearranges.outside, sorts.ordered⟩
  · rw [mpObjListSort]
    by_cases isLong : items.length > 1
    · rw [if_pos isLong]
      obtain ⟨sorted, isSorted, sorts⟩ := @mpQuicksort_spec α κ key less (!reverse) items 0
        (items.length - 1) items.length _ le_rfl (by omega) (by omega) (by omega)
      have length := sorts.rearranges.length
      refine ⟨sorted, isSorted, sorts.rearranges.perm, ?_⟩
      rw [pairwise_iff_getElem]
      intro p q pInside qInside isBehind
      have ordered := sorts.ordered p q (by omega) isBehind (by omega) sorted[p] sorted[q]
        (List.getElem?_eq_getElem pInside) (List.getElem?_eq_getElem qInside)
      cases reverse with
      | false => exact ordered
      | true => exact ordered
    · rw [if_neg isLong]
      refine ⟨items, rfl, List.Perm.refl _, ?_⟩
      rw [pairwise_iff_getElem]
      intro p q pInside qInside isBehind
      omega

theorem mpObjListSort_sorts_numbers :
    (∃ sorted, mpQuicksort id (fun x y : Nat => decide (x < y)) false 5 [3, 1, 2, 1] 1 2 =
        some sorted ∧ sorted.Perm [3, 1, 2, 1] ∧ sorted[0]? = some 3 ∧ sorted[3]? = some 1) ∧
    ∃ sorted, mpObjListSort id (fun x y : Nat => decide (x < y)) true [3, 1, 2, 1] = some sorted ∧
      sorted.Perm [3, 1, 2, 1] ∧ sorted.Pairwise fun x y => decide (x < y) = false := by
  have order : IsStrictWeakOrder Nat fun x y => decide (x < y) = true := by
    refine { irrefl := ?_, trans := ?_, incomp_trans := ?_ }
    · intro x
      simp
    · intro x y z
      simp only [decide_eq_true_eq]
      omega
    · intro x y z
      simp only [decide_eq_true_eq]
      omega
  have sorts := mpObjListSort_sorts id (fun x y : Nat => decide (x < y)) true [3, 1, 2, 1]
  obtain ⟨sorted, isSorted, perm, outside, -⟩ := sorts.1 1 2 (by decide) (by decide)
  exact ⟨⟨sorted, isSorted, perm, outside 0 (by decide), outside 3 (by decide)⟩, sorts.2⟩

end Sorting

end MultiPython.Obj
