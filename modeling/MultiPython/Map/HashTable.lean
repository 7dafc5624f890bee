import MultiPython.Map.Table

/-!
# The hash table refines a finite map

`Hashed` is the invariant of a hash table between calls. Each way a walk around the table
can end is one case of `Hashed.scan_cases`, and the lemmas after it say what the three
kinds of `mp_map_lookup` do to the entries. The entries are compared with an association
list, in whatever order they stand in the table.
-/

namespace MultiPython.Map

open Logic List Option

variable {K V : Type} {keys : MpKeys K}

/-! ## Entries -/

/-- The entries of a map, in the order of the table. -/
def MpMap.entries (map : MpMap K V) : List (K × Option V) := map.table.filterMap MpMap.slotEntry

variable {entry : K × Option V}

theorem slotEntry_eq_some {elem : MpMapElem K V} :
    MpMap.slotEntry elem = some entry ↔ elem = ⟨.key entry.1, entry.2⟩ := by
  obtain ⟨slot, value⟩ := elem
  cases slot <;> simp [MpMap.slotEntry, Prod.ext_iff]

theorem MpMap.mem_entries {map : MpMap K V} :
    entry ∈ map.entries ↔ ∃ pos : Nat, map.table[pos]? = some ⟨.key entry.1, entry.2⟩ := by
  rw [MpMap.entries, mem_filterMap]
  constructor
  · rintro ⟨elem, member, isEntry⟩
    obtain ⟨pos, here⟩ := mem_iff_getElem?.mp member
    exact ⟨pos, slotEntry_eq_some.mp isEntry ▸ here⟩
  · rintro ⟨pos, here⟩
    exact ⟨_, mem_of_getElem? here, slotEntry_eq_some.mpr rfl⟩

theorem MpMap.slot_eq_key {map : MpMap K V} {pos : Nat} {key : K} :
    (map.table.map MpMapElem.key)[pos]? = some (.key key) ↔
      ∃ value, map.table[pos]? = some ⟨.key key, value⟩ := by
  rw [List.getElem?_map, map_eq_some_iff]
  constructor
  · rintro ⟨⟨_, value⟩, here, rfl⟩
    exact ⟨value, here⟩
  · rintro ⟨value, here⟩
    exact ⟨_, here, rfl⟩

/-- Two entries have different keys. -/
def Apart (keys : MpKeys K) : K × Option V → K × Option V → Prop := Assoc.Differ Prod.fst keys.equal

/-- No entry has a key equal to this one. -/
def Absent (keys : MpKeys K) (entries : List (K × Option V)) (index : K) : Prop :=
  ∀ entry ∈ entries, keys.equal entry.1 index = false

namespace MpKeys.Lawful

variable (lawful : keys.Lawful)
include lawful

theorem apart_symm {one other : K × Option V} (apart : Apart keys one other) :
    Apart keys other one := by
  rw [Apart, Assoc.Differ, lawful.equal_comm]
  exact apart

theorem apart_perm {entries others : List (K × Option V)} (same : entries.Perm others) :
    entries.Pairwise (Apart keys) ↔ others.Pairwise (Apart keys) :=
  same.pairwise_iff lawful.apart_symm

end MpKeys.Lawful

/-! ## The invariant -/

/-- A hash table between two calls. -/
structure Hashed (keys : MpKeys K) (map : MpMap K V) : Prop where
  unordered : map.isOrdered = false
  sized : map.table.length = map.alloc
  reaches : Reaches keys.hash (map.table.map MpMapElem.key)
  apart : map.entries.Pairwise (Apart keys)
  used : map.used = map.entries.length
  qstrs : map.allKeysAreQstrs = true → ∀ entry ∈ map.entries, keys.isQstr entry.1 = true

/-- Comparing pointers only is enough to find a key. -/
def OnlyPtrs (keys : MpKeys K) (map : MpMap K V) (index : K) (onlyPtrs : Bool) : Prop :=
  onlyPtrs = true → (∀ entry ∈ map.entries, keys.isQstr entry.1 = true) ∧
    (keys.isQstr index = true ∨ keys.isStr index = false)

theorem Hashed.init (n : Nat) : Hashed keys (MpMap.mpMapInit n : MpMap K V) := by
  have none : (MpMap.mpMapInit n : MpMap K V).entries = [] := by
    simp [MpMap.entries, MpMap.mpMapInit, MpMap.slotEntry]
  refine ⟨rfl, by simp [MpMap.mpMapInit], ?_, by simp [none], by rw [none]; rfl, by simp [none]⟩
  simp only [MpMap.mpMapInit, map_replicate]
  exact .replicate n

/-- Adding a key to the table that `mp_map_rehash` has made. -/
abbrev MpMap.addNested [DecidableEq K] (keys : MpKeys K) (heap : Nat → Bool) (depth : Nat)
    (map : MpMap K V) (key : K) : Option (MpMap K V × MpMapAnswer) :=
  map.mpMapLookupNested keys heap depth key .addIfNotFound

/-- Adding a key after `mp_map_rehash`. -/
abbrev MpMap.rehashAdd [DecidableEq K] (keys : MpKeys K) (heap : Nat → Bool) (onlyPtrs : Bool)
    (index : K) (tries : Nat) (map : MpMap K V) : Option (MpMap K V × MpMapAnswer) :=
  MpMap.rehashThen heap (MpMap.addNested keys heap 1)
    (MpMap.mpMapLookupHash keys heap (MpMap.addNested keys heap 1) onlyPtrs index .addIfNotFound
      tries) map

/-- What a walk around the table finds out about a key. -/
inductive Walked (keys : MpKeys K) (map : MpMap K V) (index : K) : Scan → Prop where
  | found {pos key value} (here : map.table[pos]? = some ⟨.key key, value⟩)
      (same : keys.equal key index = true) : Walked keys map index (.found pos)
  | empty {pos avail count} (absent : Absent keys map.entries index)
      (isPlace : avail.getD pos = place (map.table.map MpMapElem.key) (keys.hash index) count)
      (before : ∀ steps < count,
        (map.table.map MpMapElem.key)[place (map.table.map MpMapElem.key) (keys.hash index) steps]? ≠
          some .null)
      (free : ∃ elem, map.table[avail.getD pos]? = some elem ∧ MpMap.slotEntry elem = none) :
      Walked keys map index (.empty pos avail)
  | circled {pos count} (absent : Absent keys map.entries index)
      (isPlace : pos = place (map.table.map MpMapElem.key) (keys.hash index) count)
      (before : ∀ steps < count,
        (map.table.map MpMapElem.key)[place (map.table.map MpMapElem.key) (keys.hash index) steps]? ≠
          some .null)
      (free : ∃ elem, map.table[pos]? = some elem ∧ MpMap.slotEntry elem = none) :
      Walked keys map index (.circled (some pos))
  | full (absent : Absent keys map.entries index) (full : map.entries.length = map.alloc) :
      Walked keys map index (.circled none)

section Walking

variable [DecidableEq K] {map : MpMap K V} {index : K} {onlyPtrs : Bool}

theorem test_eq (lawful : keys.Lawful) (ptrs : OnlyPtrs keys map index onlyPtrs)
    (member : entry ∈ map.entries) :
    (decide (entry.1 = index) || (!onlyPtrs && keys.equal entry.1 index)) =
      keys.equal entry.1 index :=
  lawful.ptrs_enough fun only => ⟨(ptrs only).1 entry member, (ptrs only).2⟩

omit [DecidableEq K] in
/-- A slot that is unused or emptied holds no entry. -/
theorem MpMap.slot_free {pos : Nat} {slot : Slot K} (notKey : ∀ key, slot ≠ .key key)
    (here : (map.table.map MpMapElem.key)[pos]? = some slot) :
    ∃ elem, map.table[pos]? = some elem ∧ MpMap.slotEntry elem = none := by
  rw [List.getElem?_map, map_eq_some_iff] at here
  obtain ⟨elem, here, isSlot⟩ := here
  refine ⟨elem, here, ?_⟩
  cases entry : MpMap.slotEntry elem with
  | none => rfl
  | some found => exact absurd (slotEntry_eq_some.mp entry ▸ isSlot).symm (notKey found.1)

/-- The walk of `mp_map_lookup` ends, and finds out where the key is or may be put. -/
theorem Hashed.scan_cases (hashed : Hashed keys map) (lawful : keys.Lawful) (some_ : map.alloc ≠ 0)
    (ptrs : OnlyPtrs keys map index onlyPtrs) :
    ∃ result, scan (fun key => decide (key = index) || (!onlyPtrs && keys.equal key index))
        (map.table.map MpMapElem.key) map.alloc (keys.hash index % map.alloc) map.alloc
        (keys.hash index % map.alloc) none = some result ∧ Walked keys map index result := by
  have length : (map.table.map MpMapElem.key).length = map.alloc := by
    rw [length_map, hashed.sized]
  -- A key that passes the test of the walk is equal to the index, and so has its hash.
  have sameHash : ∀ key, (decide (key = index) || (!onlyPtrs && keys.equal key index)) = true →
      keys.hash key = keys.hash index := by
    intro key tested
    rcases Bool.or_eq_true_iff.mp tested with identical | equal
    · rw [of_decide_eq_true identical]
    · exact lawful.hash (Bool.and_eq_true_iff.mp equal).2
  obtain ⟨result, ended, located⟩ := hashed.reaches.scan_located (by omega) fun key _ => sameHash key
  rw [length] at ended
  refine ⟨result, ended, ?_⟩
  have absentOf : (∀ key, Slot.key key ∈ map.table.map MpMapElem.key →
      (decide (key = index) || (!onlyPtrs && keys.equal key index)) = false) →
      Absent keys map.entries index := by
    intro unequal entry member
    obtain ⟨pos, here⟩ := MpMap.mem_entries.mp member
    rw [← test_eq lawful ptrs member]
    exact unequal entry.1 (mem_of_getElem? (MpMap.slot_eq_key.mpr ⟨_, here⟩))
  have freeSlot : ∀ {pos : Nat}, (∃ slot, (map.table.map MpMapElem.key)[pos]? = some slot ∧
      ∀ key, slot ≠ .key key) → ∃ elem, map.table[pos]? = some elem ∧ MpMap.slotEntry elem = none := by
    rintro pos ⟨slot, here, notKey⟩
    exact MpMap.slot_free notKey here
  cases located with
  | @found pos key here tested =>
    obtain ⟨value, there⟩ := MpMap.slot_eq_key.mp here
    have member : (key, value) ∈ map.entries := MpMap.mem_entries.mpr ⟨pos, there⟩
    exact .found there ((test_eq lawful ptrs member).symm.trans tested)
  | empty absent free =>
    obtain ⟨count, isPlace, before⟩ := free.onWalk
    exact .empty (absentOf absent) isPlace before (freeSlot free.free)
  | circled absent free =>
    obtain ⟨count, isPlace, before⟩ := free.onWalk
    exact .circled (absentOf absent) isPlace before (freeSlot free.free)
  | full absent onlyKeys =>
    refine .full (absentOf absent) ?_
    rw [MpMap.entries, length_filterMap_eq_countP, ← hashed.sized, countP_eq_length]
    intro elem member
    obtain ⟨key, isKey⟩ := onlyKeys _ (List.mem_map_of_mem member)
    simp [MpMap.slotEntry, isKey]

end Walking

/-! ## Changing a slot -/

section Changing

variable {map : MpMap K V} {pos : Nat} {key : K}

theorem MpMap.entries_split {value : Option V} (here : map.table[pos]? = some ⟨.key key, value⟩) :
    ∃ others, map.entries.Perm ((key, value) :: others) := by
  have member : (key, value) ∈ map.entries := MpMap.mem_entries.mpr ⟨pos, here⟩
  obtain ⟨early, late, split⟩ := append_of_mem member
  exact ⟨early ++ late, split ▸ perm_middle⟩

theorem MpMap.setValue_entries {old : Option V} {others : List (K × Option V)}
    (here : map.table[pos]? = some ⟨.key key, old⟩)
    (split : map.entries.Perm ((key, old) :: others)) (new : Option V) :
    (map.setValue pos new).entries.Perm ((key, new) :: others) := by
  have written : (map.setValue pos new).table = map.table.set pos ⟨.key key, new⟩ := by
    rw [MpMap.setValue, List.modify_eq_set_getElem?, here]
    rfl
  have changed : ((key, old) :: (map.setValue pos new).entries).Perm ((key, new) :: map.entries) := by
    rw [MpMap.entries, MpMap.entries, written]
    exact filterMap_set_perm MpMap.slotEntry here (⟨.key key, new⟩ : MpMapElem K V)
  exact (perm_cons (key, old)).mp
    ((changed.trans (split.cons (key, new))).trans (.swap (key, old) (key, new) others))

theorem MpMap.setValue_keys (new : Option V) :
    (map.setValue pos new).table.map MpMapElem.key = map.table.map MpMapElem.key := by
  refine ext_getElem? fun other => ?_
  simp only [MpMap.setValue, List.getElem?_map, List.getElem?_modify]
  cases map.table[other]? with
  | none => rfl
  | some elem =>
    by_cases isHere : pos = other
    · simp [isHere]
    · simp [isHere]

theorem Hashed.setValue (lawful : keys.Lawful) (hashed : Hashed keys map) {old : Option V}
    (here : map.table[pos]? = some ⟨.key key, old⟩) (new : Option V) :
    Hashed keys (map.setValue pos new) := by
  obtain ⟨others, split⟩ := MpMap.entries_split here
  have changed := MpMap.setValue_entries here split new
  refine ⟨hashed.unordered, by simpa [MpMap.setValue] using hashed.sized, ?_, ?_, ?_, ?_⟩
  · rw [MpMap.setValue_keys]
    exact hashed.reaches
  · obtain ⟨fromOthers, amongOthers⟩ :=
      pairwise_cons.mp ((lawful.apart_perm split).mp hashed.apart)
    rw [lawful.apart_perm changed, pairwise_cons]
    exact ⟨fromOthers, amongOthers⟩
  · exact hashed.used.trans (split.length_eq.trans changed.length_eq.symm)
  · intro isSet entry member
    rcases mem_cons.mp (changed.mem_iff.mp member) with rfl | there
    · exact hashed.qstrs isSet (key, old) (MpMap.mem_entries.mpr ⟨pos, here⟩)
    · exact hashed.qstrs isSet entry (split.mem_iff.mpr (mem_cons_of_mem _ there))

/-- A slot without an entry may get any value. -/
theorem Hashed.setValue_any (lawful : keys.Lawful) (hashed : Hashed keys map) (pos : Nat)
    (new : Option V) : Hashed keys (map.setValue pos new) := by
  have free : ∀ {slot : Slot K} {old : Option V}, map.table[pos]? = some ⟨slot, old⟩ →
      (∀ key, slot ≠ .key key) → Hashed keys (map.setValue pos new) := by
    intro slot old here notKey
    have noEntry : ∀ value : Option V, MpMap.slotEntry (⟨slot, value⟩ : MpMapElem K V) = none := by
      intro value
      cases entry : MpMap.slotEntry (⟨slot, value⟩ : MpMapElem K V) with
      | none => rfl
      | some found =>
        have isSlot := slotEntry_eq_some.mp entry
        exact absurd (congrArg MpMapElem.key isSlot) (notKey found.1)
    have same : (map.setValue pos new).entries.Perm map.entries := by
      have written : (map.setValue pos new).table = map.table.set pos ⟨slot, new⟩ := by
        rw [MpMap.setValue, List.modify_eq_set_getElem?, here]
        rfl
      have changed := filterMap_set_perm MpMap.slotEntry here (⟨slot, new⟩ : MpMapElem K V)
      rw [noEntry, noEntry] at changed
      rw [MpMap.entries, written]
      exact changed
    refine ⟨hashed.unordered, by simpa [MpMap.setValue] using hashed.sized, ?_, ?_, ?_, ?_⟩
    · rw [MpMap.setValue_keys]
      exact hashed.reaches
    · exact (lawful.apart_perm same).mpr hashed.apart
    · exact hashed.used.trans same.length_eq.symm
    · exact fun isSet entry member => hashed.qstrs isSet entry (same.mem_iff.mp member)
  cases here : map.table[pos]? with
  | none =>
    have unchanged : map.setValue pos new = map := by
      rw [MpMap.setValue, List.modify_eq_set_getElem?, here]
      rfl
    rwa [unchanged]
  | some elem =>
    obtain ⟨slot, old⟩ := elem
    cases slot with
    | key key => exact hashed.setValue lawful here new
    | null => exact free here (by simp)
    | sentinel => exact free here (by simp)

/-- A new key in a free slot on its walk. -/
theorem Hashed.hashAdd (lawful : keys.Lawful) (hashed : Hashed keys map) {index : K} {count : Nat}
    (absent : Absent keys map.entries index)
    (isPlace : pos = place (map.table.map MpMapElem.key) (keys.hash index) count)
    (before : ∀ steps < count,
      (map.table.map MpMapElem.key)[place (map.table.map MpMapElem.key) (keys.hash index) steps]? ≠
        some .null)
    (free : ∃ elem, map.table[pos]? = some elem ∧ MpMap.slotEntry elem = none) :
    Hashed keys (map.hashAdd keys index pos) ∧
      (map.hashAdd keys index pos).table[pos]? = some ⟨.key index, none⟩ ∧
      (map.hashAdd keys index pos).entries.Perm ((index, none) :: map.entries) := by
  obtain ⟨elem, here, isFree⟩ := free
  have added : (map.hashAdd keys index pos).entries.Perm ((index, none) :: map.entries) := by
    have changed := filterMap_set_perm MpMap.slotEntry here (⟨.key index, none⟩ : MpMapElem K V)
    rwa [isFree] at changed
  refine ⟨⟨hashed.unordered, by simpa [MpMap.hashAdd] using hashed.sized, ?_, ?_, ?_, ?_⟩, ?_, added⟩
  · simp only [MpMap.hashAdd, map_set, isPlace]
    exact hashed.reaches.insert before
  · rw [lawful.apart_perm added, pairwise_cons]
    refine ⟨fun entry member => ?_, hashed.apart⟩
    rw [Apart, Assoc.Differ, lawful.equal_comm]
    exact absent entry member
  · rw [added.length_eq, length_cons, ← hashed.used]
    rfl
  · intro isSet entry member
    obtain ⟨wasSet, isQstr⟩ : map.allKeysAreQstrs = true ∧ keys.isQstr index = true := by
      simpa [MpMap.hashAdd] using isSet
    rcases mem_cons.mp (added.mem_iff.mp member) with rfl | there
    · exact isQstr
    · exact hashed.qstrs wasSet entry there
  · obtain ⟨inside, _⟩ := List.getElem?_eq_some_iff.mp here
    simp [MpMap.hashAdd, inside]

/-- Deleting a key. The value is still there, and all other entries. -/
theorem Hashed.hashRemove [DecidableEq K] (lawful : keys.Lawful) (hashed : Hashed keys map)
    {value : Option V} (here : map.table[pos]? = some ⟨.key key, value⟩) :
    Hashed keys (map.hashRemove pos) ∧
      (∃ slot, (map.hashRemove pos).table[pos]? = some ⟨slot, value⟩ ∧ ∀ other, slot ≠ .key other) ∧
      map.entries.Perm ((key, value) :: (map.hashRemove pos).entries) := by
  obtain ⟨inside, _⟩ := List.getElem?_eq_some_iff.mp here
  obtain ⟨slot, isSlot, isFree, reaches⟩ : ∃ slot,
      (map.hashRemove pos).table = map.table.set pos ⟨slot, value⟩ ∧ (∀ other, slot ≠ .key other) ∧
        Reaches keys.hash ((map.table.map MpMapElem.key).set pos slot) := by
    by_cases next : map.table[(pos + 1) % map.alloc]?.map MpMapElem.key = some .null
    · refine ⟨.null, ?_, by simp, hashed.reaches.set_null ?_⟩
      · simp [MpMap.hashRemove, next, List.modify_eq_set_getElem?, here]
      · rw [length_map, hashed.sized, List.getElem?_map]
        exact next
    · refine ⟨.sentinel, ?_, by simp, hashed.reaches.set_sentinel pos⟩
      simp [MpMap.hashRemove, next, List.modify_eq_set_getElem?, here]
  have noEntry : MpMap.slotEntry (⟨slot, value⟩ : MpMapElem K V) = none := by
    cases slot with
    | key other => exact absurd rfl (isFree other)
    | null => rfl
    | sentinel => rfl
  have removed : map.entries.Perm ((key, value) :: (map.hashRemove pos).entries) := by
    have changed := filterMap_set_perm MpMap.slotEntry here (⟨slot, value⟩ : MpMapElem K V)
    rw [noEntry, ← isSlot] at changed
    exact changed.symm
  have rest := pairwise_cons.mp ((lawful.apart_perm removed).mp hashed.apart)
  refine ⟨⟨hashed.unordered, ?_, ?_, rest.2, ?_, ?_⟩, ⟨slot, ?_, isFree⟩, removed⟩
  · rw [isSlot, length_set]
    exact hashed.sized
  · rw [isSlot, map_set]
    exact reaches
  · have lengths := hashed.used.trans removed.length_eq
    rw [length_cons] at lengths
    change map.used - 1 = _
    omega
  · intro isSet entry member
    exact hashed.qstrs isSet entry (removed.mem_iff.mpr (mem_cons_of_mem _ member))
  · rw [isSlot, List.getElem?_set_self inside]

end Changing

/-! ## Looking up a key -/

/-- A new key without a value is in a slot, and the other entries are as they were. -/
structure Added (keys : MpKeys K) (map : MpMap K V) (index : K) (after : MpMap K V) (pos : Nat) :
    Prop where
  hashed : Hashed keys after
  here : after.table[pos]? = some ⟨.key index, none⟩
  entries : after.entries.Perm ((index, none) :: map.entries)

section LookingUp

variable [DecidableEq K] (heap : Nat → Bool) {map : MpMap K V} {index : K} {onlyPtrs : Bool}

/-- What a lookup in a table that is not empty does, for every kind. -/
theorem Hashed.lookupHash_cases (hashed : Hashed keys map) (lawful : keys.Lawful)
    (some_ : map.alloc ≠ 0) (ptrs : OnlyPtrs keys map index onlyPtrs)
    (add : MpMap K V → K → Option (MpMap K V × MpMapAnswer)) (kind : MpMapLookupKind) (tries : Nat) :
    (∃ pos key value, map.table[pos]? = some ⟨.key key, value⟩ ∧ keys.equal key index = true ∧
        MpMap.mpMapLookupHash keys heap add onlyPtrs index kind (tries + 1) map =
          if kind = .removeIfFound then some (map.hashRemove pos, .slot pos)
          else some (map, .slot pos)) ∨
      (Absent keys map.entries index ∧ kind ≠ .addIfNotFound ∧
        MpMap.mpMapLookupHash keys heap add onlyPtrs index kind (tries + 1) map = some (map, .null)) ∨
      (Absent keys map.entries index ∧ kind = .addIfNotFound ∧
        ∃ pos, Added keys map index (map.hashAdd keys index pos) pos ∧
          MpMap.mpMapLookupHash keys heap add onlyPtrs index kind (tries + 1) map =
            some (map.hashAdd keys index pos, .slot pos)) ∨
      (Absent keys map.entries index ∧ kind = .addIfNotFound ∧ map.entries.length = map.alloc ∧
        MpMap.mpMapLookupHash keys heap add onlyPtrs index kind (tries + 1) map =
          MpMap.rehashThen heap add (MpMap.mpMapLookupHash keys heap add onlyPtrs index kind tries)
            map) := by
  obtain ⟨result, ended, walked⟩ := hashed.scan_cases lawful some_ ptrs
  cases walked with
  | @found pos key value here same =>
    exact .inl ⟨pos, key, value, here, same, by simp [MpMap.mpMapLookupHash, ended]⟩
  | @empty pos avail count absent isPlace before free =>
    by_cases isAdd : kind = .addIfNotFound
    · refine .inr (.inr (.inl ⟨absent, isAdd, avail.getD pos, ?_,
        by simp [MpMap.mpMapLookupHash, ended, isAdd]⟩))
      obtain ⟨after, here, entries⟩ := hashed.hashAdd lawful absent isPlace before free
      exact ⟨after, here, entries⟩
    · exact .inr (.inl ⟨absent, isAdd, by simp [MpMap.mpMapLookupHash, ended, isAdd]⟩)
  | @circled pos count absent isPlace before free =>
    by_cases isAdd : kind = .addIfNotFound
    · refine .inr (.inr (.inl ⟨absent, isAdd, pos, ?_,
        by simp [MpMap.mpMapLookupHash, ended, isAdd]⟩))
      obtain ⟨after, here, entries⟩ := hashed.hashAdd lawful absent isPlace before free
      exact ⟨after, here, entries⟩
    · exact .inr (.inl ⟨absent, isAdd, by simp [MpMap.mpMapLookupHash, ended, isAdd]⟩)
  | full absent isFull =>
    by_cases isAdd : kind = .addIfNotFound
    · refine .inr (.inr (.inr ⟨absent, isAdd, isFull, ?_⟩))
      simp [MpMap.mpMapLookupHash, ended, isAdd]
    · exact .inr (.inl ⟨absent, isAdd, by simp [MpMap.mpMapLookupHash, ended, isAdd]⟩)

omit [DecidableEq K] in
/-- The flag of the map says when comparing pointers is enough. -/
theorem Hashed.flagged (hashed : Hashed keys map) (index : K) :
    OnlyPtrs keys map index (map.allKeysAreQstrs && (keys.isQstr index || !keys.isStr index)) := by
  intro only
  obtain ⟨isSet, kind⟩ : map.allKeysAreQstrs = true ∧
      (keys.isQstr index = true ∨ keys.isStr index = false) := by simpa using only
  exact ⟨hashed.qstrs isSet, kind⟩

theorem Hashed.add_roomy (hashed : Hashed keys map) (lawful : keys.Lawful)
    (roomy : map.entries.length < map.alloc) (absent : Absent keys map.entries index) (depth : Nat) :
    ∃ pos, Added keys map index (map.hashAdd keys index pos) pos ∧
      MpMap.mpMapLookupNested keys heap (depth + 1) map index .addIfNotFound =
        some (map.hashAdd keys index pos, .slot pos) := by
  have some_ : map.alloc ≠ 0 := by omega
  rcases hashed.lookupHash_cases heap lawful some_ (hashed.flagged index)
      (MpMap.addNested keys heap depth)
      .addIfNotFound 1 with
    ⟨pos, key, value, here, same, _⟩ | ⟨_, notAdd, _⟩ | ⟨_, _, pos, added, ran⟩ | ⟨_, _, full, _⟩
  · have different := absent (key, value) (MpMap.mem_entries.mpr ⟨pos, here⟩)
    rw [same] at different
    cases different
  · exact absurd rfl notAdd
  · refine ⟨pos, added, ?_⟩
    simp only [MpMap.mpMapLookupNested, hashed.unordered, some_, ne_eq, not_true_eq_false, and_false,
      if_false, Bool.false_eq_true]
    exact ran
  · omega

/-- The loop of `mp_map_rehash` moves the entries of the old table to the new one. -/
theorem rehash_loop (lawful : keys.Lawful) (depth : Nat) (todo : List (MpMapElem K V))
    {fresh : MpMap K V} (hashed : Hashed keys fresh)
    (apart : (fresh.entries ++ todo.filterMap MpMap.slotEntry).Pairwise (Apart keys))
    (roomy : fresh.entries.length + todo.length ≤ fresh.alloc) :
    ∃ after, todo.foldlM (MpMap.rehashElem fun map key =>
        MpMap.mpMapLookupNested keys heap (depth + 1) map key .addIfNotFound) fresh = some after ∧
      Hashed keys after ∧ after.alloc = fresh.alloc ∧
      after.entries.Perm (fresh.entries ++ todo.filterMap MpMap.slotEntry) := by
  induction todo generalizing fresh with
  | nil => exact ⟨fresh, rfl, hashed, rfl, by simp⟩
  | cons elem rest ih =>
    rw [length_cons] at roomy
    rw [foldlM_cons]
    cases entry : MpMap.slotEntry elem with
    | none =>
      rw [filterMap_cons_none entry] at apart ⊢
      obtain ⟨after, ran, spec⟩ := ih hashed apart (by omega)
      refine ⟨after, ?_, spec⟩
      rw [← ran]
      obtain ⟨slot, value⟩ := elem
      cases slot with
      | key key => cases entry
      | null => rfl
      | sentinel => rfl
    | some found =>
      obtain ⟨key, value⟩ := found
      obtain rfl := slotEntry_eq_some.mp entry
      rw [filterMap_cons_some entry] at apart ⊢
      have absent : Absent keys fresh.entries key := by
        intro other member
        exact (pairwise_append.mp apart).2.2 other member (key, value) mem_cons_self
      obtain ⟨pos, added, ran⟩ := hashed.add_roomy heap lawful (by omega) absent depth
      have written := MpMap.setValue_entries added.here added.entries value
      have moved : ((fresh.hashAdd keys key pos).setValue pos value).entries ++
          rest.filterMap MpMap.slotEntry |>.Perm
            (fresh.entries ++ (key, value) :: rest.filterMap MpMap.slotEntry) :=
        (written.append_right _).trans perm_middle.symm
      obtain ⟨after, ranRest, hashedAfter, alloc, entries⟩ :=
        ih (added.hashed.setValue lawful added.here value)
          ((lawful.apart_perm moved).mpr apart)
          (by
            rw [written.length_eq, length_cons]
            change _ ≤ fresh.alloc
            omega)
      refine ⟨after, ?_, hashedAfter, alloc, entries.trans moved⟩
      simp only [MpMap.rehashElem, ran]
      exact ranRest

/-- `mp_map_rehash` keeps the entries, and leaves room for one more. -/
theorem Hashed.rehash (hashed : Hashed keys map) (lawful : keys.Lawful) (depth : Nat) :
    (heap (getHashAllocGreaterOrEqualTo (map.alloc + 1)) = false ∧
      MpMap.mpMapRehash heap (MpMap.addNested keys heap (depth + 1)) map = some (map, false)) ∨
    (heap (getHashAllocGreaterOrEqualTo (map.alloc + 1)) = true ∧
      ∃ after, MpMap.mpMapRehash heap (MpMap.addNested keys heap (depth + 1)) map =
          some (after, true) ∧
        Hashed keys after ∧ after.entries.Perm map.entries ∧ after.entries.length < after.alloc) := by
  have larger := le_getHashAllocGreaterOrEqualTo (map.alloc + 1)
  cases hasRoom : heap (getHashAllocGreaterOrEqualTo (map.alloc + 1)) with
  | false => exact .inl ⟨rfl, by simp [MpMap.mpMapRehash, hasRoom]⟩
  | true =>
    let fresh : MpMap K V :=
      { map with
        alloc := getHashAllocGreaterOrEqualTo (map.alloc + 1)
        used := 0
        allKeysAreQstrs := true
        table := List.replicate (getHashAllocGreaterOrEqualTo (map.alloc + 1)) ⟨.null, none⟩ }
    have nothing : fresh.entries = [] := by simp [fresh, MpMap.entries, MpMap.slotEntry]
    have freshHashed : Hashed keys fresh := by
      refine ⟨hashed.unordered, by simp [fresh], ?_, by simp [nothing], by rw [nothing]; rfl,
        by simp [nothing]⟩
      simp only [fresh, map_replicate]
      exact .replicate _
    have apart : (fresh.entries ++ map.table.filterMap MpMap.slotEntry).Pairwise (Apart keys) := by
      rw [nothing]
      exact hashed.apart
    have roomy : fresh.entries.length + map.table.length ≤ fresh.alloc := by
      rw [nothing, hashed.sized]
      change 0 + map.alloc ≤ getHashAllocGreaterOrEqualTo (map.alloc + 1)
      omega
    obtain ⟨after, ran, hashedAfter, alloc, entries⟩ :=
      rehash_loop heap lawful depth map.table freshHashed apart roomy
    rw [nothing] at entries
    refine .inr ⟨rfl, after, ?_, hashedAfter, entries, ?_⟩
    · simp only [MpMap.mpMapRehash, hasRoom, if_true]
      exact congrArg (fun moved => Option.bind moved fun map => some (map, true)) ran
    · have few : map.entries.length ≤ map.table.length := length_filterMap_le _ _
      rw [entries.length_eq, alloc]
      change map.entries.length < getHashAllocGreaterOrEqualTo (map.alloc + 1)
      rw [hashed.sized] at few
      omega

omit [DecidableEq K] in
theorem Hashed.entries_of_empty (hashed : Hashed keys map) (empty : map.alloc = 0) :
    map.entries = [] := by
  have nothing := hashed.sized.trans empty
  rw [MpMap.entries, eq_nil_of_length_eq_zero nothing]
  rfl

theorem Hashed.lookup_cases (hashed : Hashed keys map) (lawful : keys.Lawful) (index : K)
    {kind : MpMapLookupKind} (notAdd : kind ≠ .addIfNotFound) :
    (Absent keys map.entries index ∧ map.mpMapLookup keys heap index kind = some (map, .null)) ∨
      ∃ pos key value, map.table[pos]? = some ⟨.key key, value⟩ ∧ keys.equal key index = true ∧
        map.mpMapLookup keys heap index kind =
          if kind = .removeIfFound then some (map.hashRemove pos, .slot pos)
          else some (map, .slot pos) := by
  by_cases shortcut : map.allKeysAreQstrs = true ∧ keys.isQstr index = false ∧
      keys.isStr index = false ∧ kind ≠ .addIfNotFound
  · refine .inl ⟨fun entry member => lawful.not_equal_of_not_str
      (hashed.qstrs shortcut.1 entry member) shortcut.2.1 shortcut.2.2.1, ?_⟩
    rw [MpMap.mpMapLookup, MpMap.mpMapLookupNested, if_pos shortcut]
  by_cases empty : map.alloc = 0
  · refine .inl ⟨by simp [Absent, hashed.entries_of_empty empty], ?_⟩
    rw [MpMap.mpMapLookup, MpMap.mpMapLookupNested, if_neg shortcut]
    simp [hashed.unordered, empty, notAdd]
  · have unfolded : map.mpMapLookup keys heap index kind = MpMap.mpMapLookupHash keys heap
        (MpMap.addNested keys heap 1)
        (map.allKeysAreQstrs && (keys.isQstr index || !keys.isStr index)) index kind 2 map := by
      rw [MpMap.mpMapLookup, MpMap.mpMapLookupNested, if_neg shortcut]
      simp [hashed.unordered, empty]
    rw [unfolded]
    rcases hashed.lookupHash_cases heap lawful empty (hashed.flagged index) _ kind 1 with
      found | ⟨absent, _, ran⟩ | ⟨_, isAdd, _⟩ | ⟨_, isAdd, _⟩
    · exact .inr found
    · exact .inl ⟨absent, ran⟩
    · exact absurd isAdd notAdd
    · exact absurd isAdd notAdd

/-- A key that is not there is added to the new table, which has room. -/
theorem Hashed.rehashThen (hashed : Hashed keys map) (lawful : keys.Lawful)
    (ptrs : OnlyPtrs keys map index onlyPtrs) (absent : Absent keys map.entries index) (tries : Nat) :
    (∃ after pos, Added keys map index after pos ∧
        MpMap.rehashAdd keys heap onlyPtrs index (tries + 1) map = some (after, .slot pos)) ∨
      (heap (getHashAllocGreaterOrEqualTo (map.alloc + 1)) = false ∧
        MpMap.rehashAdd keys heap onlyPtrs index (tries + 1) map = some (map, .raised)) := by
  rcases hashed.rehash heap lawful 0 with ⟨noRoom, ran⟩ |
    ⟨_, larger, ran, largerHashed, entries, roomy⟩
  · exact .inr ⟨noRoom, by simp [MpMap.rehashAdd, MpMap.rehashThen, ran]⟩
  have stillAbsent : Absent keys larger.entries index :=
    fun entry member => absent entry (entries.mem_iff.mp member)
  have stillPtrs : OnlyPtrs keys larger index onlyPtrs := fun only =>
    ⟨fun entry member => (ptrs only).1 entry (entries.mem_iff.mp member), (ptrs only).2⟩
  rcases largerHashed.lookupHash_cases heap lawful (by omega) stillPtrs
      (MpMap.addNested keys heap 1) .addIfNotFound tries
    with ⟨pos, key, value, here, same, _⟩ | ⟨_, notAdd, _⟩ | ⟨_, _, pos, added, walked⟩ |
      ⟨_, _, full, _⟩
  · have different := stillAbsent (key, value) (MpMap.mem_entries.mpr ⟨pos, here⟩)
    rw [same] at different
    cases different
  · exact absurd rfl notAdd
  · refine .inl ⟨_, pos, ⟨added.hashed, added.here, added.entries.trans (entries.cons _)⟩, ?_⟩
    simpa [MpMap.rehashAdd, MpMap.rehashThen, ran] using walked
  · omega

/-- Adding a key: the key is there, or it is new, or the heap has no room for a larger table
and nothing has changed. -/
theorem Hashed.add_cases (hashed : Hashed keys map) (lawful : keys.Lawful) (index : K) :
    (∃ pos key value, map.table[pos]? = some ⟨.key key, value⟩ ∧ keys.equal key index = true ∧
        map.mpMapLookup keys heap index .addIfNotFound = some (map, .slot pos)) ∨
      (Absent keys map.entries index ∧ ∃ after pos, Added keys map index after pos ∧
        map.mpMapLookup keys heap index .addIfNotFound = some (after, .slot pos)) ∨
      (Absent keys map.entries index ∧
        heap (getHashAllocGreaterOrEqualTo (map.alloc + 1)) = false ∧
        map.mpMapLookup keys heap index .addIfNotFound = some (map, .raised)) := by
  by_cases empty : map.alloc = 0
  · have absent : Absent keys map.entries index := by simp [Absent, hashed.entries_of_empty empty]
    have unfolded : map.mpMapLookup keys heap index .addIfNotFound = MpMap.rehashAdd keys heap
        (map.allKeysAreQstrs && (keys.isQstr index || !keys.isStr index)) index 2 map := by
      rw [MpMap.mpMapLookup, MpMap.mpMapLookupNested]
      simp [hashed.unordered, empty]
    rw [unfolded]
    rcases hashed.rehashThen heap lawful (hashed.flagged index) absent 1 with
      ⟨after, pos, added, ran⟩ | ⟨noRoom, ran⟩
    · exact .inr (.inl ⟨absent, after, pos, added, ran⟩)
    · exact .inr (.inr ⟨absent, noRoom, ran⟩)
  · have unfolded : map.mpMapLookup keys heap index .addIfNotFound = MpMap.mpMapLookupHash keys heap
        (MpMap.addNested keys heap 1)
        (map.allKeysAreQstrs && (keys.isQstr index || !keys.isStr index)) index .addIfNotFound 2
        map := by
      rw [MpMap.mpMapLookup, MpMap.mpMapLookupNested]
      simp [hashed.unordered, empty]
    rw [unfolded]
    rcases hashed.lookupHash_cases heap lawful empty (hashed.flagged index) _ .addIfNotFound 1 with
      ⟨pos, key, value, here, same, ran⟩ | ⟨_, notAdd, _⟩ | ⟨absent, _, pos, added, ran⟩ |
      ⟨absent, _, _, ran⟩
    · exact .inl ⟨pos, key, value, here, same, ran⟩
    · exact absurd rfl notAdd
    · exact .inr (.inl ⟨absent, _, pos, added, ran⟩)
    · rw [ran]
      rcases hashed.rehashThen heap lawful (hashed.flagged index) absent 0 with
        ⟨after, pos, added, rest⟩ | ⟨noRoom, rest⟩
      · exact .inr (.inl ⟨absent, after, pos, added, rest⟩)
      · exact .inr (.inr ⟨absent, noRoom, rest⟩)

end LookingUp

/-! ## Every run -/

/-- A call of `mp_map_lookup`, and the sizes for which the heap has room. The caller of an
addition may write a value to the slot that it gets. -/
inductive MapCall (K V : Type) where
  | lookup (heap : Nat → Bool) (index : K)
  | add (heap : Nat → Bool) (index : K) (write : Option V)
  | remove (heap : Nat → Bool) (index : K)

/-- One call and what the caller writes. -/
def MpMap.call [DecidableEq K] (keys : MpKeys K) (map : MpMap K V) :
    MapCall K V → Option (MpMap K V × MpMapAnswer)
  | .lookup heap index => map.mpMapLookup keys heap index .lookup
  | .add heap index write => do
      match ← map.mpMapLookup keys heap index .addIfNotFound, write with
      | (map, .slot pos), some value => some (map.setValue pos (some value), .slot pos)
      | result, _ => some result
  | .remove heap index => map.mpMapLookup keys heap index .removeIfFound

/-- The finite map: what a call that raises no exception does to the entries. -/
def specCall (keys : MpKeys K) (spec : List (K × Option V)) : MapCall K V → List (K × Option V)
  | .lookup _ _ => spec
  | .add _ index write =>
    Assoc.insert Prod.fst keys.equal (fun entry => (entry.1, write.or entry.2)) (index, write) spec
      index
  | .remove _ index => Assoc.erase Prod.fst keys.equal spec index

/-- The slot holds an entry. -/
def Holds (map : MpMap K V) (entry : K × Option V) : MpMapAnswer → Prop
  | .slot pos => map.table[pos]? = some ⟨.key entry.1, entry.2⟩
  | _ => False

/-- The slot held a value, and has no key any more. -/
def Held (map : MpMap K V) (value : Option V) : MpMapAnswer → Prop
  | .slot pos => ∃ slot, map.table[pos]? = some ⟨slot, value⟩ ∧ ∀ key, slot ≠ .key key
  | _ => False

/-- The answer of a call is that of the finite map. An addition may also raise an exception,
if the key is new and the heap has no room for a larger table, and then changes nothing. -/
def Answers (keys : MpKeys K) (map : MpMap K V) (spec : List (K × Option V)) (after : MpMap K V)
    (answer : MpMapAnswer) : MapCall K V → Prop
  | .lookup _ index => after = map ∧
      match Assoc.find Prod.fst keys.equal spec index with
      | none => answer = .null
      | some entry => Holds map entry answer
  | .add heap index write =>
    (answer = .raised ∧ after = map ∧ Assoc.find Prod.fst keys.equal spec index = none ∧
      heap (getHashAllocGreaterOrEqualTo (map.alloc + 1)) = false) ∨
    ∃ entry, Assoc.find Prod.fst keys.equal (specCall keys spec (.add heap index write)) index =
      some entry ∧ Holds after entry answer
  | .remove _ index =>
    match Assoc.find Prod.fst keys.equal spec index with
    | none => answer = .null ∧ after = map
    | some entry => Held after entry.2 answer

/-- A map beside the finite map that it should be. -/
structure MapHistory (K V : Type) where
  map : MpMap K V
  spec : List (K × Option V)

/-- One call on both. -/
def MapHistory.next [DecidableEq K] (keys : MpKeys K) (s : MapHistory K V) (made : MapCall K V) :
    Option (MapHistory K V) :=
  (s.map.call keys made).map fun result =>
    ⟨result.1, if result.2 = .raised then s.spec else specCall keys s.spec made⟩

/-- The map is the finite map: it has the same entries, each of them once, `used` counts them,
and every further call ends and answers as the finite map does. -/
structure MapRefines [DecidableEq K] (keys : MpKeys K) (s : MapHistory K V) : Prop where
  entries : s.map.entries.Perm s.spec
  once : s.spec.Pairwise fun one other => keys.equal one.1 other.1 = false
  used : s.map.used = s.spec.length
  answers : ∀ made, ∃ after answer, s.map.call keys made = some (after, answer) ∧
    Answers keys s.map s.spec after answer made

section Runs

variable [DecidableEq K] {map : MpMap K V} {spec : List (K × Option V)}

/-- Every call ends, answers as the finite map does, and keeps the entries those of the finite
map. -/
theorem Hashed.call_spec (lawful : keys.Lawful) (hashed : Hashed keys map)
    (entries : map.entries.Perm spec) (made : MapCall K V) :
    ∃ after answer, map.call keys made = some (after, answer) ∧
      Answers keys map spec after answer made ∧ Hashed keys after ∧
      after.entries.Perm (if answer = .raised then spec else specCall keys spec made) := by
  have apart : spec.Pairwise (Assoc.Differ Prod.fst keys.equal) :=
    (lawful.apart_perm entries).mp hashed.apart
  have absentSpec : ∀ {index}, Absent keys map.entries index →
      ∀ entry ∈ spec, keys.equal entry.1 index = false :=
    fun absent entry member => absent entry (entries.mem_iff.mpr member)
  cases made with
  | lookup heap index =>
    have notAdd : MpMapLookupKind.lookup ≠ .addIfNotFound := by simp
    rcases hashed.lookup_cases heap lawful index notAdd with
      ⟨absent, ran⟩ | ⟨pos, key, value, here, same, ran⟩
    · refine ⟨map, .null, ran, ⟨rfl, ?_⟩, hashed, entries⟩
      rw [Assoc.find_eq_none.mpr (absentSpec absent)]
    · obtain ⟨others, split⟩ := MpMap.entries_split here
      refine ⟨map, .slot pos, ran, ⟨rfl, ?_⟩, hashed, entries⟩
      rw [Assoc.find_eq_some lawful.congruent (entries.symm.trans split) apart same]
      exact here
  | add heap index write =>
    -- The slot has an entry that the caller may write to, whether it is new or not.
    have wrote : ∀ {after : MpMap K V} {pos : Nat} {key : K} {value : Option V}
        {others : List (K × Option V)}, Hashed keys after → keys.equal key index = true →
        after.table[pos]? = some ⟨.key key, value⟩ → after.entries.Perm ((key, value) :: others) →
        map.mpMapLookup keys heap index .addIfNotFound = some (after, .slot pos) →
        (specCall keys spec (.add heap index write)).Perm ((key, write.or value) :: others) →
        ∃ after answer, map.call keys (.add heap index write) = some (after, answer) ∧
          Answers keys map spec after answer (.add heap index write) ∧ Hashed keys after ∧
          after.entries.Perm
            (if answer = .raised then spec else specCall keys spec (.add heap index write)) := by
      intro after pos key value others afterHashed same here split ran specSplit
      have apartAfter : (specCall keys spec (.add heap index write)).Pairwise
          (Assoc.Differ Prod.fst keys.equal) := by
        obtain ⟨fromOthers, amongOthers⟩ :=
          pairwise_cons.mp ((lawful.apart_perm split).mp afterHashed.apart)
        exact (lawful.apart_perm specSplit).mpr (pairwise_cons.mpr ⟨fromOthers, amongOthers⟩)
      have found := Assoc.find_eq_some lawful.congruent specSplit apartAfter same
      cases write with
      | none =>
        exact ⟨after, .slot pos, by simp [MpMap.call, ran], .inr ⟨_, found, here⟩, afterHashed,
          split.trans specSplit.symm⟩
      | some value =>
        refine ⟨after.setValue pos (some value), .slot pos, by simp [MpMap.call, ran],
          .inr ⟨_, found, ?_⟩, afterHashed.setValue lawful here _,
          (MpMap.setValue_entries here split _).trans specSplit.symm⟩
        simp [Holds, MpMap.setValue, here]
    rcases hashed.add_cases heap lawful index with ⟨pos, key, value, here, same, ran⟩ |
      ⟨absent, after, pos, added, ran⟩ | ⟨absent, noRoom, ran⟩
    · obtain ⟨others, split⟩ := MpMap.entries_split here
      exact wrote hashed same here split ran
        (Assoc.insert_perm lawful.congruent (entries.symm.trans split) apart same _ _)
    · refine wrote added.hashed (lawful.refl index) added.here added.entries ran ?_
      rw [specCall, Assoc.insert_of_absent (absentSpec absent)]
      simp only [or_none]
      exact (perm_append_comm.trans (entries.symm.cons _))
    · refine ⟨map, .raised, by simp [MpMap.call, ran], .inl ⟨rfl, rfl, ?_, noRoom⟩, hashed, ?_⟩
      · exact Assoc.find_eq_none.mpr (absentSpec absent)
      · rw [if_pos rfl]
        exact entries
  | remove heap index =>
    have notAdd : MpMapLookupKind.removeIfFound ≠ .addIfNotFound := by simp
    rcases hashed.lookup_cases heap lawful index notAdd with
      ⟨absent, ran⟩ | ⟨pos, key, value, here, same, ran⟩
    · refine ⟨map, .null, ran, ?_, hashed, ?_⟩
      · rw [Answers, Assoc.find_eq_none.mpr (absentSpec absent)]
        exact ⟨rfl, rfl⟩
      · have all : Assoc.erase Prod.fst keys.equal spec index = spec :=
          filter_eq_self.mpr fun entry member => by simp [absentSpec absent entry member]
        rw [if_neg (by simp), specCall, all]
        exact entries
    · obtain ⟨after, held, split⟩ := hashed.hashRemove lawful here
      have specSplit := entries.symm.trans split
      refine ⟨map.hashRemove pos, .slot pos, ran, ?_, after, ?_⟩
      · rw [Answers, Assoc.find_eq_some lawful.congruent specSplit apart same]
        exact held
      · exact (Assoc.erase_perm lawful.congruent specSplit apart same).symm

/-- In every run of calls on a new map, the map is the finite map. -/
theorem mpMap_refines (lawful : keys.Lawful) {n : Nat} {run : List (MapCall K V × MapHistory K V)}
    (runs : Run (fun s made after => MapHistory.next keys s made = some after)
      ⟨MpMap.mpMapInit n, []⟩ run) :
    ∀ s ∈ visited ⟨MpMap.mpMapInit n, []⟩ run, MapRefines keys s := by
  have start : Hashed keys (MpMap.mpMapInit n : MpMap K V) ∧
      (MpMap.mpMapInit n : MpMap K V).entries.Perm [] := by
    refine ⟨.init n, ?_⟩
    simp [MpMap.entries, MpMap.mpMapInit, MpMap.slotEntry]
  intro s member
  obtain ⟨hashed, entries⟩ := runs.invariant
    (fun s : MapHistory K V => Hashed keys s.map ∧ s.map.entries.Perm s.spec) start
    (fun {state event next} holds stepped => by
      obtain ⟨after, answer, called, _, hashed, entries⟩ := holds.1.call_spec lawful holds.2 event
      rw [MapHistory.next, called] at stepped
      obtain rfl := some.inj stepped
      exact ⟨hashed, entries⟩) s member
  refine ⟨entries, (lawful.apart_perm entries).mp hashed.apart,
    hashed.used.trans entries.length_eq, fun made => ?_⟩
  obtain ⟨after, answer, called, answers, _⟩ := hashed.call_spec lawful entries made
  exact ⟨after, answer, called, answers⟩

end Runs

/-- Keys that collide are added to a full table, one of them is removed and another one is
added in its place. -/
theorem mpMap_refines_collisions :
    ∃ run : List (MapCall Nat Nat × MapHistory Nat Nat),
      (run.map fun taken => (taken.2.map.alloc, taken.2.spec)) =
        [(2, [(1, some 10)]), (2, [(1, some 10), (3, some 30)]),
          (4, [(1, some 10), (3, some 30), (5, some 50)]), (4, [(1, some 10), (5, some 50)]),
          (4, [(1, some 10), (5, some 50), (7, some 70)]),
          (4, [(1, some 10), (5, some 51), (7, some 70)])] ∧
      ∀ s ∈ visited ⟨MpMap.mpMapInit 0, []⟩ run, MapRefines numberKeys s := by
  let roomy : Nat → Bool := fun _ => true
  let calls : List (MapCall Nat Nat) := [.add roomy 1 (some 10), .add roomy 3 (some 30),
    .add roomy 5 (some 50), .remove roomy 3, .add roomy 7 (some 70), .add roomy 5 (some 51)]
  refine ⟨trace (MapHistory.next numberKeys) ⟨MpMap.mpMapInit 0, []⟩ calls, by decide, ?_⟩
  exact mpMap_refines numberKeys_lawful
    (Run.of_trace (fun _ _ => True) (fun _ happens => happens) calls fun _ _ => trivial)

end MultiPython.Map
