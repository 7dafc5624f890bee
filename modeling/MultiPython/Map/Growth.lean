import MultiPython.Map.FastPath
import MultiPython.Map.MpSet

/-!
# Growing without memory

What is left of a container whose table has to grow when the heap has no room. `mp_map_rehash`
allocates the new table first and changes the map only then. An ordered array and a set note the
new size before the table is allocated, so that an exception leaves them with a size that their
table does not have.
-/

namespace MultiPython.Map

open Logic

/-- A map or a set. -/
inductive Container (K V : Type) where
  | mpMap (map : MpMap K V)
  | mpSet (set : MpSet K)
deriving DecidableEq

namespace Container

variable {K V : Type}

/-- `alloc`, `used` and the table. -/
def fields : Container K V → Nat × Nat × (List (MpMapElem K V) ⊕ List (Slot K))
  | .mpMap map => (map.alloc, map.used, .inl map.table)
  | .mpSet set => (set.alloc, set.used, .inr set.table)

variable [DecidableEq K] (keys : MpKeys K) (heap : Nat → Bool) (index : K)

/-- Insert a key, and say whether that raised `MemoryError`. -/
def insert : Container K V → Option (Container K V × Bool)
  | .mpMap map => (map.mpMapLookup keys heap index .addIfNotFound).map fun result =>
    (.mpMap result.1, decide (result.2 = .raised))
  | .mpSet set => (set.mpSetLookup keys heap index .addIfNotFound).map fun result =>
    (.mpSet result.1, decide (result.2 = .raised))

/-- A container between two calls, whatever equality of keys does. -/
def Sound : Container K V → Prop
  | .mpMap map => Kept keys map
  | .mpSet set => set.table.length = set.alloc

/-- If growing the table raises `MemoryError`, the container is as it was. -/
def InsertsAtomically (container : Container K V) : Prop :=
  ∀ after, container.insert keys heap index = some (after, true) → after.fields = container.fields

/-- The heap has no room for the larger table of an ordered array or of a set, and there is no slot
for the key in the old one. -/
def Outgrows : Container K V → Prop
  | .mpMap map => map.isOrdered = true ∧ map.used = map.alloc ∧
      (∀ key, .key key ∈ map.slots → slotTest keys
        (map.allKeysAreQstrs && (keys.isQstr index || !keys.isStr index)) index key = false) ∧
      heap (map.alloc + 4) = false
  | .mpSet set => set.crowded keys index = true ∧
      heap (getHashAllocGreaterOrEqualTo (set.alloc + 1)) = false

end Container

variable {K V : Type} {keys : MpKeys K} (heap : Nat → Bool)

/-! ## Ordered arrays -/

section Ordered

variable [DecidableEq K] {map : MpMap K V} {index : K}

/-- An ordered array raises an exception if it is full, has no such key and cannot grow; its
size is the larger one then. -/
theorem Packed.raised_iff (packed : Packed keys map) {after : MpMap K V} :
    map.mpMapLookup keys heap index .addIfNotFound = some (after, .raised) ↔
      (Container.mpMap map).Outgrows keys heap index ∧ after = { map with alloc := map.alloc + 4 } := by
  have unfolded : map.mpMapLookup keys heap index .addIfNotFound = map.mpMapLookupOrdered keys heap
      (map.allKeysAreQstrs && (keys.isQstr index || !keys.isStr index)) index .addIfNotFound := by
    rw [MpMap.mpMapLookup, MpMap.mpMapLookupNested]
    simp [packed.ordered]
  have appends : ∀ {full : MpMap K V},
      full.orderedAppend keys index ≠ some (after, .raised) := by
    intro full
    cases here : full.table[full.used]? <;> simp [MpMap.orderedAppend, here]
  rw [unfolded]
  rcases packed.orderedFind_cases
      (map.allKeysAreQstrs && (keys.isQstr index || !keys.isStr index)) index (Nat.zero_add map.used)
    with ⟨at_, key, value, here, tested, ran⟩ | ⟨others, ran⟩
  · refine iff_of_false ?_ ?_
    · simp [MpMap.mpMapLookupOrdered, ran]
    · rintro ⟨⟨_, _, unequal, _⟩, _⟩
      have member : .key key ∈ map.slots :=
        MpMap.mem_slots.mpr ⟨value, MpMap.mem_entries.mpr ⟨at_, here⟩⟩
      rw [unequal key member] at tested
      cases tested
  · have unequal : ∀ key, .key key ∈ map.slots → slotTest keys
        (map.allKeysAreQstrs && (keys.isQstr index || !keys.isStr index)) index key = false := by
      intro key member
      obtain ⟨at_, here⟩ := List.mem_iff_getElem?.mp member
      exact others at_ key (Nat.zero_le at_) here
    simp only [MpMap.mpMapLookupOrdered, ran, Option.bind_eq_bind, Option.bind_some, ne_eq,
      not_true_eq_false, if_false]
    split_ifs with full room
    · exact iff_of_false appends fun outgrows => by simp [outgrows.1.2.2.2] at room
    · have noRoom : heap (map.alloc + 4) = false := by simpa using room
      constructor
      · intro raised
        cases raised
        exact ⟨⟨packed.ordered, full, unequal, noRoom⟩, rfl⟩
      · rintro ⟨_, rfl⟩
        rfl
    · exact iff_of_false appends fun outgrows => full outgrows.1.2.1

end Ordered

/-! ## Sets -/

section Sets

variable {set : MpSet K} {index : K}

/-- How many slots are unused. -/
def MpSet.unused (set : MpSet K) : Nat :=
  set.table.countP fun
    | .null => true
    | _ => false

theorem MpSet.unused_addAt (pos : Nat) : set.unused ≤ (set.addAt index pos).unused + 1 := by
  by_cases inside : pos < set.table.length
  · simp only [unused, addAt, List.countP_set inside]
    split_ifs <;> omega
  · simp [unused, addAt, List.set_eq_of_length_le (Nat.le_of_not_lt inside)]

theorem MpSet.not_crowded_of_unused (some_ : 0 < set.unused) :
    set.crowded keys index = false := by
  obtain ⟨slot, member, isNull⟩ := List.countP_pos_iff.mp some_
  rw [crowded, List.all_eq_false]
  refine ⟨slot, member, ?_⟩
  cases slot with
  | null => simp
  | sentinel => cases isNull
  | key elem => cases isNull

/-- The walk around the table comes back with nothing if and only if the table is crowded. -/
theorem MpSet.scan_cases (sized : set.table.length = set.alloc) (some_ : set.alloc ≠ 0)
    (keys : MpKeys K) (index : K) :
    ∃ result, scan (fun elem => keys.equal elem index) set.table set.alloc
        (keys.hash index % set.alloc) set.alloc (keys.hash index % set.alloc) none = some result ∧
      (result = .circled none ↔ set.crowded keys index = true) ∧
      ∀ pos, result = .found pos → ∃ elem, set.table[pos]? = some (.key elem) := by
  have inside : keys.hash index % set.table.length < set.table.length :=
    Nat.mod_lt _ (by omega)
  obtain ⟨result, ran, scanned⟩ :=
    @scan_spec K (fun elem => keys.equal elem index) set.table _ inside
  have crowdedSlot : ∀ {pos : Nat} {slot : Slot K}, set.crowded keys index = true →
      set.table[pos]? = some slot → ∃ elem, slot = .key elem ∧ keys.equal elem index = false := by
    intro pos slot isCrowded here
    have tested := List.all_eq_true.mp isCrowded slot (List.mem_of_getElem? here)
    cases slot with
    | key elem => exact ⟨elem, rfl, by simpa using tested⟩
    | null => cases tested
    | sentinel => cases tested
  rw [← sized]
  refine ⟨result, ran, ?_, ?_⟩
  · cases result with
    | empty pos avail =>
      obtain ⟨count, _, _, here, _⟩ := scanned
      refine iff_of_false (by simp) fun isCrowded => ?_
      obtain ⟨elem, isKey, _⟩ := crowdedSlot isCrowded here
      cases isKey
    | found pos =>
      obtain ⟨elem, here, same⟩ := scanned
      refine iff_of_false (by simp) fun isCrowded => ?_
      obtain ⟨other, isKey, unequal⟩ := crowdedSlot isCrowded here
      cases isKey
      simp [unequal] at same
    | circled avail =>
      obtain ⟨passed, remembers⟩ := scanned
      cases avail with
      | some pos =>
        obtain ⟨steps, _, _, here⟩ := remembers
        refine iff_of_false (by simp) fun isCrowded => ?_
        obtain ⟨elem, isKey, _⟩ := crowdedSlot isCrowded here
        cases isKey
      | none =>
        refine iff_of_true rfl (List.all_eq_true.mpr fun slot member => ?_)
        obtain ⟨elem, rfl⟩ := passed.only_keys inside remembers member
        obtain ⟨pos, here⟩ := List.mem_iff_getElem?.mp member
        obtain ⟨within, _⟩ := List.getElem?_eq_some_iff.mp here
        obtain ⟨steps, less, rfl⟩ := exists_place inside within
        simp [passed.other steps less elem here]
  · rintro pos rfl
    obtain ⟨elem, here, _⟩ := scanned
    exact ⟨elem, here⟩

theorem MpSet.loop_adds (sized : set.table.length = set.alloc) (some_ : set.alloc ≠ 0)
    (add : MpSet K → K → Option (MpSet K × MpSetAnswer K)) (index : K) (tries : Nat) :
    (set.crowded keys index = true ∧
        mpSetLookupLoop keys heap add index .addIfNotFound (tries + 1) set =
          rehashThen heap add (mpSetLookupLoop keys heap add index .addIfNotFound tries) set) ∨
      (set.crowded keys index = false ∧ ∃ after elem,
        mpSetLookupLoop keys heap add index .addIfNotFound (tries + 1) set = some (after, .elem elem) ∧
        after.table.length = after.alloc ∧ after.alloc = set.alloc ∧
        set.unused ≤ after.unused + 1) := by
  have adding : ∀ pos, (set.addAt index pos).table.length = (set.addAt index pos).alloc := by
    intro pos
    simpa [addAt] using sized
  obtain ⟨result, ran, crowded_, found⟩ := scan_cases sized some_ keys index
  cases result with
  | empty pos avail =>
    refine Or.inr ⟨by simpa using crowded_, _, index, ?_, adding (avail.getD pos), rfl,
      unused_addAt _⟩
    simp [mpSetLookupLoop, ran, MpMapLookupKind.adds]
  | found pos =>
    obtain ⟨elem, here⟩ := found pos rfl
    refine Or.inr ⟨by simpa using crowded_, set, elem, ?_, sized, rfl, Nat.le_succ _⟩
    simp [mpSetLookupLoop, ran, here, MpMapLookupKind.removes]
  | circled avail =>
    cases avail with
    | some pos =>
      refine Or.inr ⟨by simpa using crowded_, _, index, ?_, adding pos, rfl, unused_addAt _⟩
      simp [mpSetLookupLoop, ran, MpMapLookupKind.adds]
    | none =>
      refine Or.inl ⟨crowded_.mp rfl, ?_⟩
      simp [mpSetLookupLoop, ran, MpMapLookupKind.adds]

theorem MpSet.rehash_adds (keys : MpKeys K) (depth : Nat) (todo : List (Slot K)) {fresh : MpSet K}
    (sized : fresh.table.length = fresh.alloc) (roomy : todo.length < fresh.unused) :
    ∃ after, todo.foldlM (rehashSlot fun set elem =>
        mpSetLookupNested keys heap (depth + 1) set elem .addIfNotFound) fresh = some after ∧
      after.table.length = after.alloc ∧ 0 < after.unused := by
  induction todo generalizing fresh with
  | nil => exact ⟨fresh, rfl, sized, roomy⟩
  | cons slot todo ih =>
    rw [List.length_cons] at roomy
    rw [List.foldlM_cons]
    cases slot with
    | null => exact ih sized (by omega)
    | sentinel => exact ih sized (by omega)
    | key elem =>
      have some_ : fresh.alloc ≠ 0 := by
        have few : fresh.unused ≤ fresh.table.length := List.countP_le_length
        omega
      rcases @loop_adds K keys heap fresh sized some_
          (fun set elem => mpSetLookupNested keys heap depth set elem .addIfNotFound) elem 1 with
        ⟨isCrowded, _⟩ | ⟨_, larger, found, ran, sizedLarger, _, unused⟩
      · rw [not_crowded_of_unused (by omega)] at isCrowded
        cases isCrowded
      · obtain ⟨after, ranRest, rest⟩ := ih sizedLarger (by omega)
        refine ⟨after, ?_, rest⟩
        simp only [rehashSlot, mpSetLookupNested, some_, if_false, ran]
        exact ranRest

/-- `mp_set_rehash` and the search behind it raise an exception only for the new table. -/
theorem MpSet.rehashThen_raised_iff (sized : set.table.length = set.alloc) (index : K) (tries : Nat)
    {after : MpSet K} :
    rehashThen heap (fun set elem => mpSetLookupNested keys heap 1 set elem .addIfNotFound)
        (mpSetLookupLoop keys heap
          (fun set elem => mpSetLookupNested keys heap 1 set elem .addIfNotFound) index
          .addIfNotFound (tries + 1)) set = some (after, .raised) ↔
      heap (getHashAllocGreaterOrEqualTo (set.alloc + 1)) = false ∧
        after = { set with alloc := getHashAllocGreaterOrEqualTo (set.alloc + 1), used := 0 } := by
  have larger := le_getHashAllocGreaterOrEqualTo (set.alloc + 1)
  cases room : heap (getHashAllocGreaterOrEqualTo (set.alloc + 1)) with
  | false =>
    simp only [rehashThen, mpSetRehash, room, if_true, Option.bind_eq_bind, Option.bind_some,
      true_and, Option.some.injEq, Prod.mk.injEq, and_true]
    exact eq_comm
  | true =>
    refine iff_of_false ?_ (by simp)
    let fresh : MpSet K :=
      ⟨0, getHashAllocGreaterOrEqualTo (set.alloc + 1),
        List.replicate (getHashAllocGreaterOrEqualTo (set.alloc + 1)) .null⟩
    have unused : fresh.unused = getHashAllocGreaterOrEqualTo (set.alloc + 1) := by
      simp [fresh, MpSet.unused, List.countP_replicate]
    have whole : set.table.take set.alloc = set.table := by rw [← sized, List.take_length]
    obtain ⟨moved, ran, sizedMoved, roomy⟩ := @rehash_adds K heap keys 0 set.table fresh
      (by simp [fresh]) (by omega)
    have some_ : moved.alloc ≠ 0 := by
      have few : moved.unused ≤ moved.table.length := List.countP_le_length
      omega
    have rehashed : mpSetRehash heap
        (fun set elem => mpSetLookupNested keys heap 1 set elem .addIfNotFound) set =
          some (moved, true) := by
      rw [mpSetRehash, if_neg (by simp [room]), if_pos sized.ge, whole]
      exact congrArg (fun moved => Option.bind moved fun set => some (set, true)) ran
    rcases @loop_adds K keys heap moved sizedMoved some_
        (fun set elem => mpSetLookupNested keys heap 1 set elem .addIfNotFound) index tries with
      ⟨isCrowded, _⟩ | ⟨_, added, found, walked, _⟩
    · rw [not_crowded_of_unused roomy] at isCrowded
      cases isCrowded
    · simp [rehashThen, rehashed, walked]

theorem MpSet.raised_iff (sized : set.table.length = set.alloc) {after : MpSet K} :
    set.mpSetLookup keys heap index .addIfNotFound = some (after, .raised) ↔
      (set.crowded keys index = true ∧
        heap (getHashAllocGreaterOrEqualTo (set.alloc + 1)) = false) ∧
        after = { set with alloc := getHashAllocGreaterOrEqualTo (set.alloc + 1), used := 0 } := by
  by_cases empty : set.alloc = 0
  · have isCrowded : set.crowded keys index = true := by
      simp [crowded, List.eq_nil_of_length_eq_zero (sized.trans empty)]
    rw [mpSetLookup, mpSetLookupNested]
    simp only [empty, if_true, MpMapLookupKind.adds, isCrowded, true_and]
    simpa [empty] using rehashThen_raised_iff heap sized index 1
  · rw [mpSetLookup, mpSetLookupNested]
    simp only [empty, if_false]
    rcases loop_adds heap sized empty
        (fun set elem => mpSetLookupNested keys heap 1 set elem .addIfNotFound) index 1 with
      ⟨isCrowded, ran⟩ | ⟨notCrowded, added, found, ran, _⟩
    · rw [ran, rehashThen_raised_iff heap sized index 0, isCrowded]
      simp
    · rw [ran, notCrowded]
      simp

end Sets

/-! ## Every insertion -/

/-- An insertion that raises `MemoryError` leaves the container as it was, unless an ordered array
or a set has to grow and the heap has no room. -/
theorem insert_atomic_iff [DecidableEq K] {container : Container K V} (sound : container.Sound keys)
    (heap : Nat → Bool) (index : K) :
    container.InsertsAtomically keys heap index ↔ ¬ container.Outgrows keys heap index := by
  cases container with
  | mpMap map =>
    rcases sound with walkable | packed
    · refine iff_of_true ?_ ?_
      · intro after inserted
        obtain ⟨⟨same, answer⟩, ran, isAfter⟩ := Option.map_eq_some_iff.mp inserted
        rcases walkable.add_cases heap index with raised | ⟨added, pos, slot, _⟩
        · cases ran.symm.trans raised
          cases isAfter
          rfl
        · cases ran.symm.trans slot
          simp at isAfter
      · rintro ⟨ordered, _⟩
        rw [walkable.unordered] at ordered
        cases ordered
    · constructor
      · intro atomic outgrows
        have raised := (packed.raised_iff heap).mpr ⟨outgrows, rfl⟩
        have same := atomic (.mpMap { map with alloc := map.alloc + 4 })
          (by simp [Container.insert, raised])
        simp [Container.fields] at same
      · intro fits after inserted
        obtain ⟨⟨other, answer⟩, ran, isAfter⟩ := Option.map_eq_some_iff.mp inserted
        obtain ⟨rfl, isRaised⟩ := Prod.mk.inj isAfter
        obtain rfl : answer = .raised := of_decide_eq_true isRaised
        exact absurd ((packed.raised_iff heap).mp ran).1 fits
  | mpSet set =>
    have larger := le_getHashAllocGreaterOrEqualTo (set.alloc + 1)
    constructor
    · intro atomic outgrows
      have raised := (MpSet.raised_iff heap sound).mpr ⟨outgrows, rfl⟩
      have same := atomic
        (.mpSet { set with alloc := getHashAllocGreaterOrEqualTo (set.alloc + 1), used := 0 })
        (by simp [Container.insert, raised])
      simp only [Container.fields, Prod.mk.injEq] at same
      omega
    · intro fits after inserted
      obtain ⟨⟨other, answer⟩, ran, isAfter⟩ := Option.map_eq_some_iff.mp inserted
      obtain ⟨rfl, isRaised⟩ := Prod.mk.inj isAfter
      obtain rfl : answer = .raised := of_decide_eq_true isRaised
      exact absurd ((MpSet.raised_iff heap sound).mp ran).1 fits

/-- A new map stays as it is if there is no room for its first table. -/
theorem insert_atomic_first_table :
    (.mpMap (MpMap.start 0 false) : Container Nat Nat).insert numberKeys (fun _ => false) 7 =
        some (.mpMap (MpMap.start 0 false), true) ∧
      (.mpMap (MpMap.start 0 false) : Container Nat Nat).InsertsAtomically numberKeys
        (fun _ => false) 7 :=
  have sound : (.mpMap (MpMap.start 0 false) : Container Nat Nat).Sound numberKeys :=
    Kept.start 0 false
  ⟨by decide,
    (insert_atomic_iff sound (fun _ => false) 7).mpr fun outgrows => by cases outgrows.1⟩

/-- An `OrderedDict` of four entries and a set of two elements that cannot grow: the next insertion
stores behind the array, and the set looks for an element of its own outside of its table. -/
theorem failed_growth_leaves_table :
    (let table : List (MpMapElem Nat Nat) := [4, 5, 6, 7].map fun key => ⟨.key key, some (10 * key)⟩
      let full : Container Nat Nat := .mpMap ⟨false, false, true, 4, 4, table⟩
      let after : Container Nat Nat := .mpMap ⟨false, false, true, 4, 8, table⟩
      full.insert numberKeys (fun _ => false) 8 = some (after, true) ∧
        ¬ full.InsertsAtomically numberKeys (fun _ => false) 8 ∧
        after.insert numberKeys (fun _ => true) 8 = none) ∧
      let full : MpSet Nat := ⟨2, 2, [.key 4, .key 5]⟩
      let after : MpSet Nat := ⟨0, 4, [.key 4, .key 5]⟩
      full.mpSetLookup numberKeys (fun _ => false) 6 .addIfNotFound = some (after, .raised) ∧
        ¬ (.mpSet full : Container Nat Nat).InsertsAtomically numberKeys (fun _ => false) 6 ∧
        after.mpSetLookup numberKeys (fun _ => true) 7 .lookup = none := by
  refine ⟨⟨by decide, fun atomic => ?_, by decide⟩, by decide,
    fun atomic => ?_, by decide⟩
  · have same := atomic (.mpMap ⟨false, false, true, 4, 8,
      [4, 5, 6, 7].map fun key => ⟨.key key, some (10 * key)⟩⟩) (by decide)
    cases same
  · have same := atomic (.mpSet ⟨0, 4, [.key 4, .key 5]⟩) (by decide)
    cases same

end MultiPython.Map
