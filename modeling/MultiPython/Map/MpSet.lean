import MultiPython.Map.Table

/-!
# Sets

`mp_set_t` of `py/map.c`: a hash table of elements with its own copy of the open
addressing. `mp_set_rehash` changes the size and the count before it allocates the new
table, so an exception for want of memory leaves them wrong, with the old table still in
place. `Probed` is the invariant of a set between calls that leave it whole.
-/

namespace MultiPython.Map

open Logic List

/-- `mp_set_t`. -/
structure MpSet (K : Type) where
  used : Nat
  alloc : Nat
  table : List (Slot K)
deriving DecidableEq, Repr

/-- How a call ends: with an exception, `MP_OBJ_NULL`, or an element. -/
inductive MpSetAnswer (K : Type) where
  | raised
  | null
  | elem (elem : K)
deriving DecidableEq, Repr

/-- `lookup_kind & MP_MAP_LOOKUP_ADD_IF_NOT_FOUND`. -/
def MpMapLookupKind.adds : MpMapLookupKind → Bool
  | .lookup | .removeIfFound => false
  | .addIfNotFound | .addIfNotFoundOrRemoveIfFound => true

/-- `lookup_kind & MP_MAP_LOOKUP_REMOVE_IF_FOUND`. -/
def MpMapLookupKind.removes : MpMapLookupKind → Bool
  | .lookup | .addIfNotFound => false
  | .removeIfFound | .addIfNotFoundOrRemoveIfFound => true

namespace MpSet

variable {K : Type}

def mpSetInit (n : Nat) : MpSet K where
  used := 0
  alloc := n
  table := List.replicate n .null

def mpSetClear : MpSet K where
  used := 0
  alloc := 0
  table := []

variable (keys : MpKeys K) (heap : Nat → Bool) (set : MpSet K)

/-- Put a new element in a slot. -/
def addAt (index : K) (pos : Nat) : MpSet K :=
  { set with used := set.used + 1, table := set.table.set pos (.key index) }

/-- Delete the element in a slot; the slot becomes unused if the next one is. -/
def deleteAt (pos : Nat) : Option (MpSet K) := do
  let next ← set.table[(pos + 1) % set.alloc]?
  some { set with
    used := set.used - 1
    table := set.table.set pos
      (match next with
      | .null => .null
      | _ => .sentinel) }

/-- One round of the loop of `mp_set_rehash`. -/
def rehashSlot (add : MpSet K → K → Option (MpSet K × MpSetAnswer K)) (set : MpSet K) :
    Slot K → Option (MpSet K)
  | .key key => do
      match ← add set key with
      | (set, .elem _) => some set
      | _ => none
  | _ => some set

/-- `mp_set_rehash`, with the call of `mp_set_lookup` that adds an element. The size and the
count are changed first. -/
def mpSetRehash (add : MpSet K → K → Option (MpSet K × MpSetAnswer K)) (set : MpSet K) :
    Option (MpSet K × Bool) :=
  let newAlloc := getHashAllocGreaterOrEqualTo (set.alloc + 1)
  if heap newAlloc = false then
    some ({ set with alloc := newAlloc, used := 0 }, false)
  else if set.alloc ≤ set.table.length then do
    let fresh : MpSet K := ⟨0, newAlloc, List.replicate newAlloc .null⟩
    let moved ← (set.table.take set.alloc).foldlM (rehashSlot add) fresh
    some (moved, true)
  else
    none

/-- Rehash the set and search the new table. An exception leaves `mp_set_lookup`. -/
def rehashThen (add : MpSet K → K → Option (MpSet K × MpSetAnswer K))
    (search : MpSet K → Option (MpSet K × MpSetAnswer K)) (set : MpSet K) :
    Option (MpSet K × MpSetAnswer K) := do
  match ← mpSetRehash heap add set with
  | (set, false) => some (set, .raised)
  | (set, true) => search set

/-- The loop of `mp_set_lookup`. It starts again after a rehash. -/
def mpSetLookupLoop (add : MpSet K → K → Option (MpSet K × MpSetAnswer K)) (index : K)
    (kind : MpMapLookupKind) : Nat → MpSet K → Option (MpSet K × MpSetAnswer K)
  | 0, _ => none
  | tries + 1, set => do
      let start := keys.hash index % set.alloc
      match ← scan (fun elem => keys.equal elem index) set.table set.alloc start set.alloc start none with
      | .found pos =>
        match set.table[pos]? with
        | some (.key elem) =>
          if kind.removes then
            let set ← set.deleteAt pos
            some (set, .elem elem)
          else
            some (set, .elem elem)
        | _ => none
      | .empty pos avail =>
        if kind.adds then some (set.addAt index (avail.getD pos), .elem index)
        else some (set, .null)
      | .circled avail =>
        if kind.adds then
          match avail with
          | some pos => some (set.addAt index pos, .elem index)
          | none => rehashThen heap add (mpSetLookupLoop add index kind tries) set
        else
          some (set, .null)

/-- `mp_set_lookup`, with a bound on how deep the calls from `mp_set_rehash` may nest. -/
def mpSetLookupNested : Nat → MpSet K → K → MpMapLookupKind → Option (MpSet K × MpSetAnswer K)
  | 0, _, _, _ => none
  | depth + 1, set, index, kind =>
    let add set elem := mpSetLookupNested depth set elem .addIfNotFound
    if set.alloc = 0 then
      if kind.adds then rehashThen heap add (mpSetLookupLoop keys heap add index kind 2) set
      else some (set, .null)
    else
      mpSetLookupLoop keys heap add index kind 2 set

def mpSetLookup (index : K) (kind : MpMapLookupKind) : Option (MpSet K × MpSetAnswer K) :=
  mpSetLookupNested keys heap 2 set index kind

/-- The loop of `mp_set_remove_first` from a position on. -/
def removeFirstFrom : Nat → Nat → Option (MpSet K × MpSetAnswer K)
  | 0, _ => some (set, .null)
  | left + 1, pos => do
      match ← set.table[pos]? with
      | .key elem =>
        let set ← set.deleteAt pos
        some (set, .elem elem)
      | _ => removeFirstFrom left (pos + 1)

def mpSetRemoveFirst : Option (MpSet K × MpSetAnswer K) := set.removeFirstFrom set.alloc 0

end MpSet

variable {K : Type} {keys : MpKeys K}

/-- Equality of elements is an equivalence, and equal elements have equal hashes. -/
structure MpKeys.Compatible (keys : MpKeys K) : Prop where
  refl : ∀ elem, keys.equal elem elem = true
  symm : ∀ {one other}, keys.equal one other = true → keys.equal other one = true
  trans : ∀ {one middle other}, keys.equal one middle = true → keys.equal middle other = true →
    keys.equal one other = true
  hash : ∀ {one other}, keys.equal one other = true → keys.hash one = keys.hash other

theorem MpKeys.Compatible.congruent (compatible : keys.Compatible) : Assoc.Congruent keys.equal :=
  ⟨compatible.symm, compatible.trans⟩

/-! ## Elements -/

/-- `mp_set_slot_is_filled`, as the element in the slot. -/
def slotElem : Slot K → Option K
  | .key elem => some elem
  | _ => none

/-- The elements of a set, in the order of the table. -/
def MpSet.elems (set : MpSet K) : List K := set.table.filterMap slotElem

/-- Two elements are not equal. -/
def Unequal (keys : MpKeys K) : K → K → Prop := Assoc.Differ id keys.equal

theorem slotElem_eq_some {slot : Slot K} {elem : K} : slotElem slot = some elem ↔ slot = .key elem := by
  cases slot <;> simp [slotElem]

theorem slotElem_eq_none {slot : Slot K} (notKey : ∀ key, slot ≠ .key key) : slotElem slot = none := by
  cases slot with
  | key key => exact absurd rfl (notKey key)
  | null => rfl
  | sentinel => rfl

theorem MpSet.mem_elems {set : MpSet K} {elem : K} : elem ∈ set.elems ↔ .key elem ∈ set.table := by
  simp [MpSet.elems, mem_filterMap, slotElem_eq_some]

theorem MpKeys.Compatible.unequal_perm (compatible : keys.Compatible) {elems others : List K}
    (same : elems.Perm others) : elems.Pairwise (Unequal keys) ↔ others.Pairwise (Unequal keys) := by
  refine same.pairwise_iff fun {one other} unequal => ?_
  by_contra equal
  have swapped := compatible.symm (Bool.not_eq_false _ ▸ equal)
  rw [Unequal, Assoc.Differ] at unequal
  exact Bool.noConfusion (swapped.symm.trans unequal)

/-! ## The invariant -/

/-- A set between two calls. -/
structure Probed (keys : MpKeys K) (set : MpSet K) : Prop where
  sized : set.table.length = set.alloc
  reaches : Reaches keys.hash set.table
  apart : set.elems.Pairwise (Unequal keys)
  used : set.used = set.elems.length

theorem Probed.init (n : Nat) : Probed keys (MpSet.mpSetInit n) := by
  have nothing : (MpSet.mpSetInit n : MpSet K).elems = [] := by
    simp [MpSet.elems, MpSet.mpSetInit, slotElem]
  exact ⟨by simp [MpSet.mpSetInit], .replicate n, by simp [nothing], by rw [nothing]; rfl⟩

section Changing

variable {set : MpSet K} {pos : Nat}

theorem Probed.addAt (probed : Probed keys set) (compatible : keys.Compatible) {index : K}
    (absent : ∀ elem ∈ set.elems, keys.equal elem index = false)
    (free : FreeFor keys.hash set.table index pos) :
    Probed keys (set.addAt index pos) ∧ (set.addAt index pos).elems.Perm (index :: set.elems) := by
  obtain ⟨slot, here, notKey⟩ := free.free
  have added : (set.addAt index pos).elems.Perm (index :: set.elems) := by
    have changed := filterMap_set_perm slotElem here (.key index)
    rwa [slotElem_eq_none notKey] at changed
  refine ⟨⟨?_, probed.reaches.insert_free free, ?_, ?_⟩, added⟩
  · rw [MpSet.addAt, length_set]
    exact probed.sized
  · rw [compatible.unequal_perm (added.trans (perm_append_singleton index set.elems).symm), pairwise_append]
    refine ⟨probed.apart, pairwise_singleton _ _, fun elem member other isIndex => ?_⟩
    rw [mem_singleton.mp isIndex]
    exact absent elem member
  · rw [added.length_eq, length_cons, ← probed.used]
    rfl

/-- Deleting an element keeps all the others. -/
theorem Probed.deleteAt (probed : Probed keys set) (compatible : keys.Compatible) {elem : K}
    (here : set.table[pos]? = some (.key elem)) :
    ∃ after, set.deleteAt pos = some after ∧ Probed keys after ∧
      set.elems.Perm (elem :: after.elems) := by
  obtain ⟨inside, _⟩ := List.getElem?_eq_some_iff.mp here
  have nextInside : (pos + 1) % set.alloc < set.table.length := by
    rw [probed.sized] at inside ⊢
    exact Nat.mod_lt _ (by omega)
  obtain ⟨slot, ran, notKey, reaches⟩ : ∃ slot,
      set.deleteAt pos = some ⟨set.used - 1, set.alloc, set.table.set pos slot⟩ ∧
        (∀ key, slot ≠ .key key) ∧ Reaches keys.hash (set.table.set pos slot) := by
    cases next : set.table[(pos + 1) % set.alloc]? with
    | none =>
      rw [List.getElem?_eq_getElem nextInside] at next
      cases next
    | some slot =>
      cases slot with
      | null =>
        refine ⟨.null, by simp [MpSet.deleteAt, next], by simp, probed.reaches.set_null ?_⟩
        rw [probed.sized]
        exact next
      | sentinel =>
        exact ⟨.sentinel, by simp [MpSet.deleteAt, next], by simp, probed.reaches.set_sentinel pos⟩
      | key other =>
        exact ⟨.sentinel, by simp [MpSet.deleteAt, next], by simp, probed.reaches.set_sentinel pos⟩
  refine ⟨_, ran, ?_⟩
  have removed : set.elems.Perm
      (elem :: (⟨set.used - 1, set.alloc, set.table.set pos slot⟩ : MpSet K).elems) := by
    have changed := filterMap_set_perm slotElem here slot
    rw [slotElem_eq_none notKey] at changed
    exact changed.symm
  refine ⟨⟨?_, reaches, ?_, ?_⟩, removed⟩
  · rw [length_set]
    exact probed.sized
  · exact (pairwise_cons.mp ((compatible.unequal_perm removed).mp probed.apart)).2
  · have lengths := probed.used.trans removed.length_eq
    rw [length_cons] at lengths
    change set.used - 1 = _
    omega

end Changing

/-! ## Looking up an element -/

section LookingUp

variable (heap : Nat → Bool) {set : MpSet K} {index : K}

/-- The set has no element equal to this one. -/
def Lacks (keys : MpKeys K) (set : MpSet K) (index : K) : Prop :=
  ∀ elem ∈ set.elems, keys.equal elem index = false

/-- An element was added. -/
structure SetAdded (keys : MpKeys K) (set : MpSet K) (index : K) (after : MpSet K) : Prop where
  probed : Probed keys after
  elems : after.elems.Perm (index :: set.elems)

/-- An element was found, and was deleted if the call says so. -/
structure SetFound (keys : MpKeys K) (set : MpSet K) (index elem : K) (kind : MpMapLookupKind)
    (after : MpSet K) : Prop where
  equal : keys.equal elem index = true
  member : elem ∈ set.elems
  kept : kind.removes = false → after = set
  removed : kind.removes = true → set.elems.Perm (elem :: after.elems)
  probed : Probed keys after

/-- What the loop does in a table that is not empty. -/
theorem Probed.loop_cases (probed : Probed keys set) (compatible : keys.Compatible)
    (some_ : set.alloc ≠ 0) (add : MpSet K → K → Option (MpSet K × MpSetAnswer K)) (index : K)
    (kind : MpMapLookupKind) (tries : Nat) :
    (∃ elem after, SetFound keys set index elem kind after ∧
        MpSet.mpSetLookupLoop keys heap add index kind (tries + 1) set = some (after, .elem elem)) ∨
      (Lacks keys set index ∧ kind.adds = false ∧
        MpSet.mpSetLookupLoop keys heap add index kind (tries + 1) set = some (set, .null)) ∨
      (Lacks keys set index ∧ kind.adds = true ∧ ∃ after, SetAdded keys set index after ∧
        after.alloc = set.alloc ∧
        MpSet.mpSetLookupLoop keys heap add index kind (tries + 1) set = some (after, .elem index)) ∨
      (Lacks keys set index ∧ kind.adds = true ∧ (∀ slot ∈ set.table, ∃ key, slot = .key key) ∧
        MpSet.mpSetLookupLoop keys heap add index kind (tries + 1) set =
          MpSet.rehashThen heap add (MpSet.mpSetLookupLoop keys heap add index kind tries) set) := by
  have sameHash : ∀ elem, keys.equal elem index = true → keys.hash elem = keys.hash index :=
    fun _ => compatible.hash
  obtain ⟨result, ended, located⟩ := probed.reaches.scan_located (by rw [probed.sized]; omega)
    fun key _ => sameHash key
  rw [probed.sized] at ended
  have lacks : (∀ elem, .key elem ∈ set.table → keys.equal elem index = false) →
      Lacks keys set index := fun unequal elem member => unequal elem (MpSet.mem_elems.mp member)
  -- A free slot takes the element, if the call adds one.
  have absentAt : ∀ {pos : Nat}, Lacks keys set index → FreeFor keys.hash set.table index pos →
      MpSet.mpSetLookupLoop keys heap add index kind (tries + 1) set =
        (if kind.adds then some (set.addAt index pos, .elem index) else some (set, .null)) →
      (Lacks keys set index ∧ kind.adds = false ∧
        MpSet.mpSetLookupLoop keys heap add index kind (tries + 1) set = some (set, .null)) ∨
      (Lacks keys set index ∧ kind.adds = true ∧ ∃ after, SetAdded keys set index after ∧
        after.alloc = set.alloc ∧
        MpSet.mpSetLookupLoop keys heap add index kind (tries + 1) set = some (after, .elem index)) := by
    intro pos absent free ran
    cases adds : kind.adds with
    | false => exact .inl ⟨absent, rfl, by simpa [adds] using ran⟩
    | true =>
      obtain ⟨after, elems⟩ := probed.addAt compatible absent free
      exact .inr ⟨absent, rfl, _, ⟨after, elems⟩, rfl, by simpa [adds] using ran⟩
  cases located with
  | @found pos elem here same =>
    left
    cases removes : kind.removes with
    | false =>
      refine ⟨elem, set, ⟨same, MpSet.mem_elems.mpr (mem_of_getElem? here), fun _ => rfl,
        by simp [removes], probed⟩, ?_⟩
      simp [MpSet.mpSetLookupLoop, ended, here, removes]
    | true =>
      obtain ⟨after, deleted, probedAfter, elems⟩ := probed.deleteAt compatible here
      refine ⟨elem, after, ⟨same, MpSet.mem_elems.mpr (mem_of_getElem? here),
        by simp [removes], fun _ => elems, probedAfter⟩, ?_⟩
      simp [MpSet.mpSetLookupLoop, ended, here, removes, deleted]
  | @empty pos avail absent free =>
    rcases absentAt (lacks absent) free (by simp [MpSet.mpSetLookupLoop, ended]) with
      unchanged | added
    · exact .inr (.inl unchanged)
    · exact .inr (.inr (.inl added))
  | @circled pos absent free =>
    rcases absentAt (lacks absent) free (by simp [MpSet.mpSetLookupLoop, ended]) with
      unchanged | added
    · exact .inr (.inl unchanged)
    · exact .inr (.inr (.inl added))
  | full absent onlyKeys =>
    cases adds : kind.adds with
    | false =>
      exact .inr (.inl ⟨lacks absent, rfl, by simp [MpSet.mpSetLookupLoop, ended, adds]⟩)
    | true =>
      exact .inr (.inr (.inr ⟨lacks absent, rfl, onlyKeys,
        by simp [MpSet.mpSetLookupLoop, ended, adds]⟩))

theorem Probed.length_of_only_keys (probed : Probed keys set)
    (onlyKeys : ∀ slot ∈ set.table, ∃ key, slot = .key key) : set.elems.length = set.alloc := by
  rw [MpSet.elems, length_filterMap_eq_countP, ← probed.sized, countP_eq_length]
  intro slot member
  obtain ⟨key, rfl⟩ := onlyKeys slot member
  rfl

theorem Probed.add_roomy (probed : Probed keys set) (compatible : keys.Compatible)
    (roomy : set.elems.length < set.alloc) (lacks : Lacks keys set index)
    (add : MpSet K → K → Option (MpSet K × MpSetAnswer K)) (kind : MpMapLookupKind)
    (adds : kind.adds = true) (tries : Nat) :
    ∃ after, SetAdded keys set index after ∧ after.alloc = set.alloc ∧
      MpSet.mpSetLookupLoop keys heap add index kind (tries + 1) set = some (after, .elem index) := by
  rcases probed.loop_cases heap compatible (by omega) add index kind tries with
    ⟨elem, after, found, _⟩ | ⟨_, notAdds, _⟩ | ⟨_, _, added⟩ | ⟨_, _, onlyKeys, _⟩
  · have unequal := lacks elem found.member
    rw [found.equal] at unequal
    cases unequal
  · rw [adds] at notAdds
    cases notAdds
  · exact added
  · have full := probed.length_of_only_keys onlyKeys
    omega

/-- The loop of `mp_set_rehash` moves the elements of the old table to the new one. -/
theorem setRehash_loop (compatible : keys.Compatible) (depth : Nat) (todo : List (Slot K))
    {fresh : MpSet K} (probed : Probed keys fresh)
    (apart : (fresh.elems ++ todo.filterMap slotElem).Pairwise (Unequal keys))
    (roomy : fresh.elems.length + todo.length ≤ fresh.alloc) :
    ∃ after, todo.foldlM (MpSet.rehashSlot fun set elem =>
        MpSet.mpSetLookupNested keys heap (depth + 1) set elem .addIfNotFound) fresh = some after ∧
      Probed keys after ∧ after.alloc = fresh.alloc ∧
      after.elems.Perm (fresh.elems ++ todo.filterMap slotElem) := by
  induction todo generalizing fresh with
  | nil => exact ⟨fresh, rfl, probed, rfl, by simp⟩
  | cons slot rest ih =>
    rw [length_cons] at roomy
    rw [foldlM_cons]
    cases entry : slotElem slot with
    | none =>
      rw [filterMap_cons_none entry] at apart ⊢
      obtain ⟨after, ran, spec⟩ := ih probed apart (by omega)
      refine ⟨after, ?_, spec⟩
      rw [← ran]
      cases slot with
      | key elem => cases entry
      | null => rfl
      | sentinel => rfl
    | some elem =>
      obtain rfl := slotElem_eq_some.mp entry
      rw [filterMap_cons_some entry] at apart ⊢
      have lacks : Lacks keys fresh elem := fun other member =>
        (pairwise_append.mp apart).2.2 other member elem mem_cons_self
      obtain ⟨larger, added, alloc, ran⟩ := probed.add_roomy heap compatible (by omega) lacks
        (fun set elem => MpSet.mpSetLookupNested keys heap depth set elem .addIfNotFound)
        .addIfNotFound rfl 1
      have moved : (larger.elems ++ rest.filterMap slotElem).Perm
          (fresh.elems ++ elem :: rest.filterMap slotElem) :=
        (added.elems.append_right _).trans perm_middle.symm
      obtain ⟨after, ranRest, probedAfter, allocAfter, elems⟩ :=
        ih added.probed ((compatible.unequal_perm moved).mpr apart)
          (by
            rw [added.elems.length_eq, length_cons, alloc]
            omega)
      have some_ : fresh.alloc ≠ 0 := by omega
      refine ⟨after, ?_, probedAfter, allocAfter.trans alloc, elems.trans moved⟩
      simp only [MpSet.rehashSlot, MpSet.mpSetLookupNested, some_, if_false, ran]
      exact ranRest

section

variable (probed : Probed keys set) (compatible : keys.Compatible)
  (room : heap (getHashAllocGreaterOrEqualTo (set.alloc + 1)) = true)

include probed compatible room

theorem Probed.rehash (depth : Nat) :
    ∃ after, MpSet.mpSetRehash heap (fun set elem =>
        MpSet.mpSetLookupNested keys heap (depth + 1) set elem .addIfNotFound) set =
          some (after, true) ∧
      Probed keys after ∧ after.elems.Perm set.elems ∧ after.elems.length < after.alloc := by
  have larger := le_getHashAllocGreaterOrEqualTo (set.alloc + 1)
  have fresh : Probed keys (MpSet.mpSetInit (getHashAllocGreaterOrEqualTo (set.alloc + 1))) := .init _
  have nothing : (MpSet.mpSetInit (getHashAllocGreaterOrEqualTo (set.alloc + 1)) : MpSet K).elems = [] :=
    eq_nil_of_length_eq_zero fresh.used.symm
  have apart : ((MpSet.mpSetInit (getHashAllocGreaterOrEqualTo (set.alloc + 1)) : MpSet K).elems ++
      set.table.filterMap slotElem).Pairwise (Unequal keys) := by
    rw [nothing]
    exact probed.apart
  have roomy : (MpSet.mpSetInit (getHashAllocGreaterOrEqualTo (set.alloc + 1)) : MpSet K).elems.length +
      set.table.length ≤ getHashAllocGreaterOrEqualTo (set.alloc + 1) := by
    rw [nothing, probed.sized, length_nil]
    omega
  obtain ⟨after, ran, probedAfter, alloc, elems⟩ :=
    setRehash_loop heap compatible depth set.table fresh apart roomy
  rw [nothing] at elems
  refine ⟨after, ?_, probedAfter, elems, ?_⟩
  · have whole : set.table.take set.alloc = set.table := by rw [← probed.sized, take_length]
    rw [MpSet.mpSetRehash, if_neg (by simp [room]), if_pos probed.sized.ge, whole]
    exact congrArg (fun moved => Option.bind moved fun set => some (set, true)) ran
  · have few : set.elems.length ≤ set.table.length := length_filterMap_le _ _
    rw [elems.length_eq, alloc]
    change set.elems.length < getHashAllocGreaterOrEqualTo (set.alloc + 1)
    rw [probed.sized] at few
    omega

theorem Probed.rehashThen (lacks : Lacks keys set index) {kind : MpMapLookupKind}
    (adds : kind.adds = true) (tries : Nat) :
    ∃ after, SetAdded keys set index after ∧
      MpSet.rehashThen heap
        (fun set elem => MpSet.mpSetLookupNested keys heap 1 set elem .addIfNotFound)
        (MpSet.mpSetLookupLoop keys heap
          (fun set elem => MpSet.mpSetLookupNested keys heap 1 set elem .addIfNotFound) index kind
          (tries + 1)) set = some (after, .elem index) := by
  obtain ⟨larger, ran, probedLarger, elems, roomy⟩ := probed.rehash heap compatible room 0
  have stillLacks : Lacks keys larger index := fun elem member =>
    lacks elem (elems.mem_iff.mp member)
  obtain ⟨after, added, _, walked⟩ := probedLarger.add_roomy heap compatible roomy stillLacks
    (fun set elem => MpSet.mpSetLookupNested keys heap 1 set elem .addIfNotFound) kind adds tries
  refine ⟨after, ⟨added.probed, added.elems.trans (elems.cons index)⟩, ?_⟩
  simpa [MpSet.rehashThen, ran] using walked

end

/-- Every slot holds an element, and none of them is equal to this one. -/
def MpSet.crowded (keys : MpKeys K) (set : MpSet K) (index : K) : Bool :=
  set.table.all fun
    | .key elem => !keys.equal elem index
    | _ => false

theorem crowded_of_lacks (lacks : Lacks keys set index)
    (onlyKeys : ∀ slot ∈ set.table, ∃ key, slot = .key key) : set.crowded keys index = true := by
  rw [MpSet.crowded, List.all_eq_true]
  intro slot member
  obtain ⟨elem, rfl⟩ := onlyKeys slot member
  simp [lacks elem (MpSet.mem_elems.mpr member)]

/-- `mp_set_lookup`: the element is found, or is not there, or is added. -/
theorem Probed.lookup_cases (probed : Probed keys set) (compatible : keys.Compatible) (index : K)
    (kind : MpMapLookupKind)
    (fits : kind.adds = true → set.crowded keys index = true →
      heap (getHashAllocGreaterOrEqualTo (set.alloc + 1)) = true) :
    (∃ elem after, SetFound keys set index elem kind after ∧
        set.mpSetLookup keys heap index kind = some (after, .elem elem)) ∨
      (Lacks keys set index ∧ kind.adds = false ∧
        set.mpSetLookup keys heap index kind = some (set, .null)) ∨
      (Lacks keys set index ∧ kind.adds = true ∧ ∃ after, SetAdded keys set index after ∧
        set.mpSetLookup keys heap index kind = some (after, .elem index)) := by
  by_cases empty : set.alloc = 0
  · have noSlots : set.table = [] := eq_nil_of_length_eq_zero (probed.sized.trans empty)
    have lacks : Lacks keys set index := by simp [Lacks, MpSet.elems, noSlots]
    cases adds : kind.adds with
    | false =>
      refine .inr (.inl ⟨lacks, rfl, ?_⟩)
      simp [MpSet.mpSetLookup, MpSet.mpSetLookupNested, empty, adds]
    | true =>
      have room := fits adds (crowded_of_lacks lacks (by simp [noSlots]))
      obtain ⟨after, added, ran⟩ := probed.rehashThen heap compatible room lacks adds 1
      refine .inr (.inr ⟨lacks, rfl, after, added, ?_⟩)
      simpa [MpSet.mpSetLookup, MpSet.mpSetLookupNested, empty, adds] using ran
  · have unfolded : set.mpSetLookup keys heap index kind = MpSet.mpSetLookupLoop keys heap
        (fun set elem => MpSet.mpSetLookupNested keys heap 1 set elem .addIfNotFound) index kind 2
        set := by
      rw [MpSet.mpSetLookup, MpSet.mpSetLookupNested]
      simp only [empty, if_false]
    rw [unfolded]
    rcases probed.loop_cases heap compatible empty _ index kind 1 with
      found | absent | ⟨lacks, adds, after, added, _, ran⟩ | ⟨lacks, adds, onlyKeys, ran⟩
    · exact .inl found
    · exact .inr (.inl absent)
    · exact .inr (.inr ⟨lacks, adds, after, added, ran⟩)
    · rw [ran]
      have room := fits adds (crowded_of_lacks lacks onlyKeys)
      obtain ⟨after, added, rest⟩ := probed.rehashThen heap compatible room lacks adds 0
      exact .inr (.inr ⟨lacks, adds, after, added, rest⟩)

end LookingUp

/-- The loop of `mp_set_remove_first`: the slots before the position hold no element. -/
theorem Probed.removeFirstFrom {set : MpSet K} (probed : Probed keys set)
    (compatible : keys.Compatible) {left pos : Nat} (within : pos + left = set.alloc)
    (passed : (set.table.take pos).filterMap slotElem = []) :
    (set.elems = [] ∧ set.removeFirstFrom left pos = some (set, .null)) ∨
      ∃ elem after, set.removeFirstFrom left pos = some (after, .elem elem) ∧ Probed keys after ∧
        set.elems.Perm (elem :: after.elems) := by
  induction left generalizing pos with
  | zero =>
    refine .inl ⟨?_, rfl⟩
    rwa [take_of_length_le (by rw [probed.sized]; omega)] at passed
  | succ left ih =>
    have inside : pos < set.table.length := by rw [probed.sized]; omega
    have here : set.table[pos]? = some set.table[pos] := List.getElem?_eq_getElem inside
    cases entry : slotElem set.table[pos] with
    | none =>
      have stepped : set.removeFirstFrom (left + 1) pos = set.removeFirstFrom left (pos + 1) := by
        rw [MpSet.removeFirstFrom, here]
        cases slot : set.table[pos] with
        | key elem =>
          rw [slot] at entry
          cases entry
        | null => simp
        | sentinel => simp
      rw [stepped]
      refine ih (by omega) ?_
      rw [take_succ_eq_append_getElem inside, filterMap_append, passed]
      simp [entry]
    | some elem =>
      have isKey := slotElem_eq_some.mp entry
      rw [isKey] at here
      obtain ⟨after, deleted, probedAfter, elems⟩ := probed.deleteAt compatible here
      exact .inr ⟨elem, after, by simp [MpSet.removeFirstFrom, here, deleted], probedAfter, elems⟩

theorem Probed.removeFirst {set : MpSet K} (probed : Probed keys set) (compatible : keys.Compatible) :
    (set.elems = [] ∧ set.mpSetRemoveFirst = some (set, .null)) ∨
      ∃ elem after, set.mpSetRemoveFirst = some (after, .elem elem) ∧ Probed keys after ∧
        set.elems.Perm (elem :: after.elems) :=
  probed.removeFirstFrom compatible (Nat.zero_add _) (by simp)

/-! ## Every run -/

/-- A call, and the sizes for which the heap has room. -/
inductive SetCall (K : Type) where
  | lookup (heap : Nat → Bool) (index : K) (kind : MpMapLookupKind)
  | removeFirst
  | clear

/-- One call. -/
def MpSet.call (keys : MpKeys K) (set : MpSet K) : SetCall K → Option (MpSet K × MpSetAnswer K)
  | .lookup heap index kind => set.mpSetLookup keys heap index kind
  | .removeFirst => set.mpSetRemoveFirst
  | .clear => some (.mpSetClear, .null)

/-- The heap has room for a larger table if an element that is not there is added to a table
without a free slot. -/
def SetFits (keys : MpKeys K) (set : MpSet K) : SetCall K → Prop
  | .lookup heap index kind => kind.adds = true → set.crowded keys index = true →
      heap (getHashAllocGreaterOrEqualTo (set.alloc + 1)) = true
  | .removeFirst | .clear => True

instance (set : MpSet K) : (made : SetCall K) → Decidable (SetFits keys set made)
  | .lookup heap index kind => inferInstanceAs (Decidable (kind.adds = true →
      set.crowded keys index = true → heap (getHashAllocGreaterOrEqualTo (set.alloc + 1)) = true))
  | .removeFirst | .clear => .isTrue trivial

/-- The finite set: what a call that raises no exception does to the elements. The first
element is the one that the call returns. -/
def specSetCall (keys : MpKeys K) (spec : List K) : SetCall K → MpSetAnswer K → List K
  | .lookup _ index kind, _ =>
    match Assoc.find id keys.equal spec index with
    | none => if kind.adds then spec ++ [index] else spec
    | some _ => if kind.removes then Assoc.erase id keys.equal spec index else spec
  | .removeFirst, .elem elem => Assoc.erase id keys.equal spec elem
  | .removeFirst, _ => spec
  | .clear, _ => []

/-- The answer of a call is that of the finite set. -/
def SetAnswers (keys : MpKeys K) (spec : List K) (answer : MpSetAnswer K) : SetCall K → Prop
  | .lookup _ index kind =>
    match Assoc.find id keys.equal spec index with
    | none => answer = if kind.adds then .elem index else .null
    | some elem => answer = .elem elem
  | .removeFirst => (spec = [] ∧ answer = .null) ∨ ∃ elem ∈ spec, answer = .elem elem
  | .clear => answer = .null

/-- A set beside the finite set that it should be. -/
structure SetHistory (K : Type) where
  set : MpSet K
  spec : List K
deriving DecidableEq

/-- One call on both. An exception leaves the finite set alone. -/
def SetHistory.next [DecidableEq K] (keys : MpKeys K) (s : SetHistory K) (made : SetCall K) :
    Option (SetHistory K) :=
  (s.set.call keys made).map fun result =>
    ⟨result.1, if result.2 = .raised then s.spec else specSetCall keys s.spec made result.2⟩

/-- The set is the finite set: it has the same elements, each of them once, and `used` of them.
Every further call that fits raises no exception, answers as the finite set does, and leaves
the elements of the finite set; the first one is removed exactly once. -/
structure SetRefines (keys : MpKeys K) (s : SetHistory K) : Prop where
  elems : s.set.elems.Perm s.spec
  once : s.spec.Pairwise fun one other => keys.equal one other = false
  size : s.set.used = s.spec.length
  answers : ∀ made, SetFits keys s.set made → ∃ after answer,
    s.set.call keys made = some (after, answer) ∧ SetAnswers keys s.spec answer made ∧
      after.elems.Perm (specSetCall keys s.spec made answer)
  removesOne : s.spec ≠ [] → ∃ elem after, s.set.mpSetRemoveFirst = some (after, .elem elem) ∧
    s.spec.Perm (elem :: after.elems)

section Runs

variable {set : MpSet K} {spec : List K}

/-- A call that fits answers as the finite set does. -/
theorem Probed.call_spec (probed : Probed keys set) (compatible : keys.Compatible)
    (elems : set.elems.Perm spec) {made : SetCall K} (fits : SetFits keys set made) :
    ∃ after answer, set.call keys made = some (after, answer) ∧ answer ≠ .raised ∧
      SetAnswers keys spec answer made ∧ Probed keys after ∧
      after.elems.Perm (specSetCall keys spec made answer) := by
  have apart : spec.Pairwise (Assoc.Differ id keys.equal) :=
    (compatible.unequal_perm elems).mp probed.apart
  have absentSpec : ∀ {index : K}, Lacks keys set index → Assoc.find id keys.equal spec index = none :=
    fun lacks => Assoc.find_eq_none.mpr fun elem member => lacks elem (elems.mem_iff.mpr member)
  cases made with
  | lookup heap index kind =>
    rcases probed.lookup_cases heap compatible index kind fits with
      ⟨elem, after, found, ran⟩ | ⟨lacks, adds, ran⟩ | ⟨lacks, adds, after, added, ran⟩
    · obtain ⟨early, late, split⟩ := append_of_mem (elems.mem_iff.mp found.member)
      have specSplit : spec.Perm (elem :: (early ++ late)) := split ▸ perm_middle
      have foundSpec := Assoc.find_eq_some compatible.congruent specSplit apart found.equal
      refine ⟨after, .elem elem, ran, by simp, ?_, found.probed, ?_⟩
      · rw [SetAnswers, foundSpec]
      · rw [specSetCall, foundSpec]
        cases removes : kind.removes with
        | false =>
          rw [found.kept removes]
          exact elems
        | true =>
          have rest := elems.symm.trans (found.removed removes)
          exact (Assoc.erase_perm compatible.congruent rest apart found.equal).symm
    · refine ⟨set, .null, ran, by simp, ?_, probed, ?_⟩
      · rw [SetAnswers, absentSpec lacks]
        simp [adds]
      · rw [specSetCall, absentSpec lacks]
        simpa [adds] using elems
    · refine ⟨after, .elem index, ran, by simp, ?_, added.probed, ?_⟩
      · rw [SetAnswers, absentSpec lacks]
        simp [adds]
      · rw [specSetCall, absentSpec lacks]
        simp only [adds, if_true]
        exact added.elems.trans ((elems.cons index).trans (perm_append_singleton index spec).symm)
  | removeFirst =>
    rcases probed.removeFirst compatible with
      ⟨empty, ran⟩ | ⟨elem, after, ran, probedAfter, removed⟩
    · rw [empty] at elems
      refine ⟨set, .null, ran, by simp, .inl ⟨elems.nil_eq.symm, rfl⟩, probed, ?_⟩
      rw [empty]
      exact elems
    · have rest := elems.symm.trans removed
      refine ⟨after, .elem elem, ran, by simp,
        .inr ⟨elem, rest.mem_iff.mpr mem_cons_self, rfl⟩, probedAfter, ?_⟩
      exact (Assoc.erase_perm compatible.congruent rest apart (compatible.refl elem)).symm
  | clear => exact ⟨_, .null, rfl, by simp, rfl, .init 0, .nil⟩

/-- In every run in which the calls fit, the set is the finite set. -/
theorem mpSet_refines [DecidableEq K] (compatible : keys.Compatible) {n : Nat}
    {run : List (SetCall K × SetHistory K)}
    (runs : Run (fun s made after => SetHistory.next keys s made = some after)
      ⟨MpSet.mpSetInit n, []⟩ run)
    (fits : ∀ taken ∈ fired ⟨MpSet.mpSetInit n, []⟩ run, SetFits keys taken.1.set taken.2) :
    ∀ s ∈ visited ⟨MpSet.mpSetInit n, []⟩ run, SetRefines keys s := by
  have start : Probed keys (MpSet.mpSetInit n : MpSet K) ∧
      (MpSet.mpSetInit n : MpSet K).elems.Perm [] := by
    refine ⟨.init n, ?_⟩
    simp [MpSet.elems, MpSet.mpSetInit, slotElem]
  intro s member
  obtain ⟨probed, elems⟩ := runs.invariant_of_fired
    (fun s : SetHistory K => Probed keys s.set ∧ s.set.elems.Perm s.spec)
    (fun s made => SetFits keys s.set made) start
    (fun {state event next} holds fits stepped => by
      obtain ⟨after, answer, called, notRaised, _, probed, elems⟩ :=
        holds.1.call_spec compatible holds.2 fits
      rw [SetHistory.next, called] at stepped
      obtain rfl := Option.some.inj stepped
      simpa [notRaised] using And.intro probed elems) fits s member
  refine ⟨elems, (compatible.unequal_perm elems).mp probed.apart, probed.used.trans elems.length_eq,
    fun made fits => ?_, fun some_ => ?_⟩
  · obtain ⟨after, answer, called, _, answers, _, elemsAfter⟩ :=
      probed.call_spec compatible elems fits
    exact ⟨after, answer, called, answers, elemsAfter⟩
  · rcases probed.removeFirst compatible with ⟨empty, _⟩ | ⟨elem, after, ran, _, removed⟩
    · rw [empty] at elems
      exact absurd elems.nil_eq.symm some_
    · exact ⟨elem, after, ran, elems.symm.trans removed⟩

end Runs

/-- Elements that collide are added to a full table, one of them is removed, another one takes
its slot, and the first one is removed. -/
theorem mpSet_refines_collisions :
    ∃ run : List (SetCall Nat × SetHistory Nat),
      (run.map fun taken => (taken.2.set.alloc, taken.2.spec)) =
        [(2, [1]), (2, [1, 3]), (4, [1, 3, 5]), (4, [1, 5]), (4, [1, 5, 7]), (4, [1, 7]),
          (4, [1])] ∧
      ∀ s ∈ visited ⟨MpSet.mpSetInit 0, []⟩ run, SetRefines numberKeys s := by
  let roomy : Nat → Bool := fun _ => true
  let calls : List (SetCall Nat) := [.lookup roomy 1 .addIfNotFound, .lookup roomy 3 .addIfNotFound,
    .lookup roomy 5 .addIfNotFound, .lookup roomy 3 .removeIfFound, .lookup roomy 7 .addIfNotFound,
    .lookup roomy 5 .addIfNotFoundOrRemoveIfFound, .removeFirst]
  have compatible : numberKeys.Compatible := ⟨numberKeys_lawful.refl, numberKeys_lawful.symm,
    numberKeys_lawful.trans, numberKeys_lawful.hash⟩
  have fits : ∀ taken ∈ fired ⟨MpSet.mpSetInit 0, []⟩
      (trace (SetHistory.next numberKeys) ⟨MpSet.mpSetInit 0, []⟩ calls),
      SetFits numberKeys taken.1.set taken.2 := by decide
  refine ⟨trace (SetHistory.next numberKeys) ⟨MpSet.mpSetInit 0, []⟩ calls, by decide, ?_⟩
  exact mpSet_refines compatible
    (Run.of_trace (fun _ _ => True) (fun _ happens => happens) calls fun _ _ => trivial) fits

/-- If the heap has no room for a larger table, the call raises an exception and the count of a
set with two elements becomes zero. -/
theorem rehash_loses_count :
    ∃ run : List (SetCall Nat × SetHistory Nat),
      Run (fun s made after => SetHistory.next numberKeys s made = some after)
        ⟨MpSet.mpSetInit 0, []⟩ run ∧
      ∃ s ∈ visited ⟨MpSet.mpSetInit 0, []⟩ run, s.spec = [1, 3] ∧ s.set.used = 0 ∧
        s.set.alloc ≠ s.set.table.length ∧ ¬SetRefines numberKeys s := by
  let calls : List (SetCall Nat) := [.lookup (fun _ => true) 1 .addIfNotFound,
    .lookup (fun _ => true) 3 .addIfNotFound, .lookup (fun _ => false) 5 .addIfNotFound]
  let run := trace (SetHistory.next numberKeys) ⟨MpSet.mpSetInit 0, []⟩ calls
  let last := (visited ⟨MpSet.mpSetInit 0, []⟩ run).getLast (cons_ne_nil _ _)
  have live : last.spec = [1, 3] := by decide
  have count : last.set.used = 0 := by decide
  refine ⟨run, Run.of_trace (fun _ _ => True) (fun _ happens => happens) calls fun _ _ => trivial,
    last, getLast_mem _, live, count, by decide, fun refines => ?_⟩
  have size := refines.size
  rw [live, count] at size
  cases size

end MultiPython.Map
