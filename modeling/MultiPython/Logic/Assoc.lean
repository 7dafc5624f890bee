import Mathlib

/-!
# Association lists up to an equality of keys

The entries of a finite map as a list, in the order of insertion. Keys are compared by a
test that is symmetric and transitive. The lemmas describe the operations on a list of
which one entry is singled out, so that they do not depend on the order of the others.
-/

namespace MultiPython.Logic.Assoc

open List

variable {α κ : Type*} (key : α → κ) (equal : κ → κ → Bool)

/-- The entry for a key. -/
def find (entries : List α) (index : κ) : Option α := entries.find? fun entry => equal (key entry) index

/-- The list without the entry for a key. -/
def erase (entries : List α) (index : κ) : List α :=
  entries.filter fun entry => !equal (key entry) index

/-- Change the entry for a key. -/
def alter (change : α → α) (entries : List α) (index : κ) : List α :=
  entries.map fun entry => if equal (key entry) index then change entry else entry

/-- Change the entry for a key, or add one at the end. -/
def insert (change : α → α) (new : α) (entries : List α) (index : κ) : List α :=
  match find key equal entries index with
  | none => entries ++ [new]
  | some _ => alter key equal change entries index

/-- The keys of two entries differ. -/
def Differ (one other : α) : Prop := equal (key one) (key other) = false

/-- A test of keys that is symmetric and transitive. -/
structure Congruent (equal : κ → κ → Bool) : Prop where
  symm : ∀ {one other}, equal one other = true → equal other one = true
  trans : ∀ {one middle other}, equal one middle = true → equal middle other = true →
    equal one other = true

variable {key equal} {entries others : List α} {index : κ}

theorem find_eq_none :
    find key equal entries index = none ↔ ∀ entry ∈ entries, equal (key entry) index = false := by
  simp [find]

/-- If a key is absent, an entry is added at the end. -/
theorem insert_of_absent (absent : ∀ entry ∈ entries, equal (key entry) index = false)
    (change : α → α) (new : α) :
    insert key equal change new entries index = entries ++ [new] := by
  rw [insert, find_eq_none.mpr absent]

section Split

variable {entry : α} (congruent : Congruent equal) (split : entries.Perm (entry :: others))
  (apart : entries.Pairwise (Differ key equal)) (same : equal (key entry) index = true)
include congruent split apart same

/-- The keys of the other entries are not equal. -/
theorem others_differ : ∀ other ∈ others, equal (key other) index = false := by
  have differs : ∀ {one other : α}, Differ key equal one other → Differ key equal other one := by
    intro one other differ
    by_contra equal
    rw [Differ, Bool.not_eq_false] at equal
    rw [Differ, congruent.symm equal] at differ
    cases differ
  have fromEntry := (pairwise_cons.mp ((split.pairwise_iff differs).mp apart)).1
  intro other member
  by_contra alike
  rw [Bool.not_eq_false] at alike
  have differ := fromEntry other member
  rw [Differ, congruent.trans same (congruent.symm alike)] at differ
  cases differ

theorem find_eq_some : find key equal entries index = some entry := by
  have unequal := others_differ congruent split apart same
  cases found : find key equal entries index with
  | none =>
    have absent := find_eq_none.mp found entry (split.mem_iff.mpr mem_cons_self)
    rw [same] at absent
    cases absent
  | some other =>
    have member := split.mem_iff.mp (List.mem_of_find?_eq_some found)
    rcases mem_cons.mp member with rfl | there
    · rfl
    · have alike : equal (key other) index = true :=
        List.find?_some (p := fun entry => equal (key entry) index) found
      rw [unequal other there] at alike
      cases alike

theorem erase_perm : (erase key equal entries index).Perm others := by
  have unequal := others_differ congruent split apart same
  have all : others.filter (fun other => !equal (key other) index) = others :=
    filter_eq_self.mpr fun other member => by simp [unequal other member]
  have filtered := split.filter fun other => !equal (key other) index
  rwa [filter_cons_of_neg (by simp [same]), all] at filtered

theorem alter_perm (change : α → α) :
    (alter key equal change entries index).Perm (change entry :: others) := by
  have unequal := others_differ congruent split apart same
  have all : others.map (fun other => if equal (key other) index then change other else other) =
      others :=
    map_congr_left (fun other member => by simp [unequal other member]) |>.trans
      (List.map_id' others)
  have mapped := split.map fun other => if equal (key other) index then change other else other
  rwa [map_cons, all, if_pos same] at mapped

theorem insert_perm (change : α → α) (new : α) :
    (insert key equal change new entries index).Perm (change entry :: others) := by
  rw [insert, find_eq_some congruent split apart same]
  exact alter_perm congruent split apart same change

end Split

/-! ## Lists in order -/

section Ordered

variable {entry : α} {before after : List α} (congruent : Congruent equal)
  (apart : (before ++ entry :: after).Pairwise (Differ key equal))
  (same : equal (key entry) index = true)
include congruent apart same

theorem find_middle : find key equal (before ++ entry :: after) index = some entry :=
  find_eq_some congruent perm_middle apart same

theorem erase_middle : erase key equal (before ++ entry :: after) index = before ++ after := by
  have unequal := others_differ congruent perm_middle apart same
  rw [erase, filter_append, filter_cons_of_neg (by simp [same]), ← filter_append]
  exact filter_eq_self.mpr fun other member => by simp [unequal other member]

theorem insert_middle (change : α → α) (new : α) :
    insert key equal change new (before ++ entry :: after) index =
      before ++ change entry :: after := by
  have unequal := others_differ congruent perm_middle apart same
  have kept : ∀ others : List α, (∀ other ∈ others, other ∈ before ++ after) →
      others.map (fun other => if equal (key other) index then change other else other) = others := by
    intro others sub
    refine (map_congr_left fun other member => ?_).trans (List.map_id' others)
    simp [unequal other (sub other member)]
  rw [insert, find_middle congruent apart same]
  simp only [alter, map_append, map_cons, same, if_true]
  rw [kept before fun _ => mem_append_left _, kept after fun _ => mem_append_right _]

end Ordered

/-- Only one entry of a list has a key. -/
theorem only (congruent : Congruent equal) (apart : entries.Pairwise (Differ key equal)) {entry : α}
    (member : entry ∈ entries) (same : equal (key entry) index = true) :
    ∀ other ∈ entries, equal (key other) index = true → other = entry := by
  intro other there alsoSame
  obtain ⟨early, late, split⟩ := append_of_mem member
  have perm : entries.Perm (entry :: (early ++ late)) := split ▸ perm_middle
  rcases mem_cons.mp (perm.mem_iff.mp there) with isEntry | isOther
  · exact isEntry
  · rw [others_differ congruent perm apart same other isOther] at alsoSame
    cases alsoSame

/-! ## Lists with the same keys -/

section Covering

variable (congruent : Congruent equal) (apart : entries.Pairwise (Differ key equal))
  (covered : ∀ entry ∈ entries, ∃ other ∈ others, equal (key other) (key entry) = true)
include congruent apart covered

/-- If every key of a list is in another one, each has a position of its own there. -/
theorem exists_positions : ∃ place : Fin entries.length → Fin others.length,
    Function.Injective place ∧ ∀ at_, equal (key others[place at_]) (key entries[at_]) = true := by
  have positions : ∀ at_ : Fin entries.length, ∃ there : Fin others.length,
      equal (key others[there]) (key entries[at_]) = true := by
    intro at_
    obtain ⟨other, member, same⟩ := covered entries[at_] (getElem_mem at_.isLt)
    obtain ⟨there, inside, rfl⟩ := mem_iff_getElem.mp member
    exact ⟨⟨there, inside⟩, same⟩
  choose place same using positions
  refine ⟨place, fun one other isSame => ?_, same⟩
  have alike : equal (key entries[one]) (key entries[other]) = true := by
    refine congruent.trans (congruent.symm (same one)) ?_
    rw [isSame]
    exact same other
  have differ := pairwise_iff_getElem.mp apart
  by_contra different
  rcases Nat.lt_or_gt_of_ne (Fin.val_ne_of_ne different) with before | behind
  · have unlike := differ one other one.isLt other.isLt before
    rw [Differ] at unlike
    exact absurd alike (by simpa using unlike)
  · have unlike := differ other one other.isLt one.isLt behind
    rw [Differ] at unlike
    exact absurd (congruent.symm alike) (by simpa using unlike)

theorem length_le_of_covered : entries.length ≤ others.length := by
  obtain ⟨place, injective, _⟩ := exists_positions congruent apart covered
  simpa using Fintype.card_le_of_injective place injective

/-- A list of as many entries has no further keys. -/
theorem covers_back (length : entries.length = others.length) :
    ∀ other ∈ others, ∃ entry ∈ entries, equal (key entry) (key other) = true := by
  obtain ⟨place, injective, same⟩ := exists_positions congruent apart covered
  have surjective := ((Fintype.bijective_iff_injective_and_card place).mpr
    ⟨injective, by simpa using length⟩).2
  intro other member
  obtain ⟨there, inside, rfl⟩ := mem_iff_getElem.mp member
  obtain ⟨at_, isThere⟩ := surjective ⟨there, inside⟩
  refine ⟨entries[at_], getElem_mem at_.isLt, congruent.symm ?_⟩
  have found := same at_
  simp only [isThere] at found
  exact found

end Covering

end MultiPython.Logic.Assoc
