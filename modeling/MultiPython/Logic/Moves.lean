import Mathlib

/-!
# Moving cells one after the other

A sequence of moves within a store, or from another store: each reads a source and writes a cell. If
no write changes what a later move reads, and no cell is written twice, all moves see the store as it
was.
-/

namespace MultiPython.Logic

variable {Store Cell Source Value View : Type} (read : Store → Source → Option Value)
  (write : Store → Cell → Value → Option Store)

/-- One move. -/
def move (s : Store) (pair : Cell × Source) : Option Store :=
  (read s pair.2).bind (write s pair.1)

variable {read write}

/-- If all moves succeed, each of them succeeded in some store. -/
theorem move_of_mem {pairs : List (Cell × Source)} {s after : Store}
    (ran : pairs.foldlM (move read write) s = some after) {pair : Cell × Source}
    (member : pair ∈ pairs) :
    ∃ t v next, read t pair.2 = some v ∧ write t pair.1 v = some next := by
  induction pairs generalizing s with
  | nil => cases member
  | cons first rest ih =>
    rw [List.foldlM_cons, Option.bind_eq_bind, Option.bind_eq_some_iff] at ran
    obtain ⟨next, moved, ran⟩ := ran
    rcases List.mem_cons.mp member with rfl | later
    · obtain ⟨v, reads, writes⟩ := Option.bind_eq_some_iff.mp moved
      exact ⟨s, v, next, reads, writes⟩
    · exact ih ran later

variable [DecidableEq Cell] {get : Store → Cell → View} {shown : Value → View → View}
  {inside : Cell → Prop}

/-- All moves succeed and see the store as it was. -/
theorem moves_spec {pairs : List (Cell × Source)}
    (writes : ∀ pair ∈ pairs, ∀ s v, ∃ next, write s pair.1 v = some next ∧
      ∀ cell, inside cell →
        get next cell = if cell = pair.1 then shown v (get s cell) else get s cell)
    (keeps : pairs.Pairwise fun first later => first.1 ≠ later.1 ∧
      ∀ s v next, write s first.1 v = some next → read next later.2 = read s later.2)
    {s : Store} (reads : ∀ pair ∈ pairs, ∃ v, read s pair.2 = some v) :
    ∃ after, pairs.foldlM (move read write) s = some after ∧ ∀ cell, inside cell →
      (∀ pair ∈ pairs, pair.1 = cell → ∀ v, read s pair.2 = some v →
        get after cell = shown v (get s cell)) ∧
      ((∀ pair ∈ pairs, pair.1 ≠ cell) → get after cell = get s cell) := by
  induction pairs generalizing s with
  | nil => exact ⟨s, rfl, fun cell _ => ⟨fun _ member => (by cases member), fun _ => rfl⟩⟩
  | cons first rest ih =>
    obtain ⟨apart, keeps⟩ := List.pairwise_cons.mp keeps
    obtain ⟨v, isRead⟩ := reads first List.mem_cons_self
    obtain ⟨next, written, isNext⟩ := writes first List.mem_cons_self s v
    have same : ∀ pair ∈ rest, read next pair.2 = read s pair.2 :=
      fun pair member => (apart pair member).2 s v next written
    obtain ⟨after, ran, spec⟩ := ih (fun pair member => writes pair (List.mem_cons_of_mem _ member))
      keeps (s := next) fun pair member =>
        same pair member ▸ reads pair (List.mem_cons_of_mem _ member)
    refine ⟨after, ?_, fun cell isInside => ⟨fun pair member isCell u isValue => ?_, fun others => ?_⟩⟩
    · rw [List.foldlM_cons, move, isRead, Option.bind_some, written]
      exact ran
    · obtain ⟨moved, unmoved⟩ := spec cell isInside
      rcases List.mem_cons.mp member with rfl | later
      · obtain rfl : v = u := Option.some.inj (isRead.symm.trans isValue)
        rw [unmoved fun other there => isCell ▸ (apart other there).1.symm, isNext cell isInside,
          if_pos isCell.symm]
      · rw [moved pair later isCell u (same pair later ▸ isValue), isNext cell isInside,
          if_neg (isCell ▸ (apart pair later).1.symm)]
    · rw [(spec cell isInside).2 fun other there => others other (List.mem_cons_of_mem _ there),
        isNext cell isInside, if_neg (others first List.mem_cons_self).symm]

end MultiPython.Logic
