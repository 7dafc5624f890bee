import MultiPython.Logic.Assoc
import MultiPython.Logic.Probing
import MultiPython.Logic.Run

/-!
# Maps

`mp_map_t` of `py/map.c`: a hash table with open addressing, or an array in the order of
insertion. Keys are compared, hashed and told apart as interned strings through `MpKeys`.
A function returns `none` if it reads outside of a table or compares a slot without a key,
and a call that allocates is told for which sizes the heap has room.
-/

namespace MultiPython.Map

open Logic

/-- What the maps ask of keys: `mp_obj_is_qstr`, `mp_obj_is_type(index, &mp_type_str)`,
`mp_obj_equal`, and the hash as an `mp_uint_t`. -/
structure MpKeys (K : Type) where
  isQstr : K → Bool
  isStr : K → Bool
  equal : K → K → Bool
  hash : K → Nat

/-- Equality of keys is an equivalence, and equal keys have equal hashes. `mp_obj_equal`
compares interned strings by identity, and a string is equal to strings only. -/
structure MpKeys.Lawful {K : Type} (keys : MpKeys K) : Prop where
  refl : ∀ key, keys.equal key key = true
  symm : ∀ {one other}, keys.equal one other = true → keys.equal other one = true
  trans : ∀ {one middle other}, keys.equal one middle = true → keys.equal middle other = true →
    keys.equal one other = true
  hash : ∀ {one other}, keys.equal one other = true → keys.hash one = keys.hash other
  qstrsApart : ∀ {one other}, keys.isQstr one = true → keys.isQstr other = true →
    keys.equal one other = true → one = other
  qstrOnly : ∀ {one other}, keys.isQstr one = true → keys.equal one other = true →
    keys.isQstr other = true ∨ keys.isStr other = true

/-- `mp_map_lookup_kind_t`. -/
inductive MpMapLookupKind where
  | lookup
  | addIfNotFound
  | removeIfFound
  | addIfNotFoundOrRemoveIfFound
deriving DecidableEq, Repr

/-- `mp_map_elem_t`; a value of `none` is `MP_OBJ_NULL`. -/
structure MpMapElem (K V : Type) where
  key : Slot K
  value : Option V
deriving DecidableEq, Repr

/-- `mp_map_t`. -/
structure MpMap (K V : Type) where
  allKeysAreQstrs : Bool
  isFixed : Bool
  isOrdered : Bool
  used : Nat
  alloc : Nat
  table : List (MpMapElem K V)
deriving DecidableEq, Repr

/-- How `mp_map_lookup` ends: with an exception, `NULL`, or a slot. -/
inductive MpMapAnswer where
  | raised
  | null
  | slot (pos : Nat)
deriving DecidableEq, Repr

def hashAllocationSizes : List Nat :=
  [0, 2, 4, 6, 8, 10, 12, 17, 23, 29, 37, 47, 59, 73, 97, 127, 167, 223, 293, 389, 521, 691, 919, 1223,
    1627, 2161, 3229, 4831, 7243, 10861, 16273, 24407, 36607, 54907]

def getHashAllocGreaterOrEqualTo (x : Nat) : Nat :=
  (hashAllocationSizes.find? fun size => x ≤ size).getD ((x + x / 2) ||| 1)

theorem le_getHashAllocGreaterOrEqualTo (x : Nat) : x ≤ getHashAllocGreaterOrEqualTo x := by
  unfold getHashAllocGreaterOrEqualTo
  cases found : hashAllocationSizes.find? fun size => x ≤ size with
  | none => exact (Nat.le_add_right x (x / 2)).trans Nat.left_le_or
  | some size => simpa using List.find?_some found

namespace MpMap

variable {K V : Type}

def mpMapInit (n : Nat) : MpMap K V where
  allKeysAreQstrs := true
  isFixed := false
  isOrdered := false
  used := 0
  alloc := n
  table := List.replicate n ⟨.null, none⟩

def mpMapClear (map : MpMap K V) : MpMap K V :=
  { map with allKeysAreQstrs := true, isFixed := false, used := 0, alloc := 0, table := [] }

variable (keys : MpKeys K) (heap : Nat → Bool) (map : MpMap K V)

/-- The caller writes to the value of a slot. -/
def setValue (pos : Nat) (value : Option V) : MpMap K V :=
  { map with table := map.table.modify pos fun elem => { elem with value := value } }

/-- `mp_map_slot_is_filled`, as the entry in the slot. -/
def slotEntry (elem : MpMapElem K V) : Option (K × Option V) :=
  match elem.key with
  | .key key => some (key, elem.value)
  | _ => none

/-! ## The ordered array -/

variable [DecidableEq K]

/-- The search of the ordered array from a position on; `mp_obj_equal` needs an object on
both sides. -/
def orderedFind (onlyPtrs : Bool) (index : K) (table : List (MpMapElem K V)) :
    Nat → Nat → Option MpMapAnswer
  | 0, _ => some .null
  | left + 1, pos => do
      let elem ← table[pos]?
      match elem.key with
      | .key key =>
        if key = index ∨ (onlyPtrs = false ∧ keys.equal key index = true) then
          some (.slot pos)
        else
          orderedFind onlyPtrs index table left (pos + 1)
      | _ => if onlyPtrs then orderedFind onlyPtrs index table left (pos + 1) else none

/-- Move the rest of the array down over a removed entry, and put its value after the end. -/
def orderedRemove (pos : Nat) (value : Option V) : MpMap K V :=
  { map with
    used := map.used - 1
    table := map.table.take pos ++ (map.table.take map.used).drop (pos + 1) ++
      ⟨.null, value⟩ :: map.table.drop map.used }

/-- Write a key to the slot after the last entry. The slot keeps its value. -/
def orderedAppend (index : K) : Option (MpMap K V × MpMapAnswer) := do
  let elem ← map.table[map.used]?
  some ({ map with
    allKeysAreQstrs := map.allKeysAreQstrs && keys.isQstr index
    used := map.used + 1
    table := map.table.set map.used { elem with key := .key index } }, .slot map.used)

/-- The branch of `mp_map_lookup` for an ordered array. `m_renew` raises an exception if the
heap has no room, after `alloc` has been changed. -/
def mpMapLookupOrdered (onlyPtrs : Bool) (index : K) (kind : MpMapLookupKind) :
    Option (MpMap K V × MpMapAnswer) := do
  match ← orderedFind keys onlyPtrs index map.table map.used 0 with
  | .slot pos =>
    if kind = .removeIfFound then
      let elem ← map.table[pos]?
      some (map.orderedRemove pos elem.value, .slot (map.used - 1))
    else
      some (map, .slot pos)
  | _ =>
    if kind ≠ .addIfNotFound then
      some (map, .null)
    else if map.used = map.alloc then
      if heap (map.alloc + 4) then
        orderedAppend keys
          { map with
            alloc := map.alloc + 4
            table := map.table.take map.used ++ List.replicate (map.alloc + 4 - map.used) ⟨.null, none⟩ }
          index
      else
        some ({ map with alloc := map.alloc + 4 }, .raised)
    else
      map.orderedAppend keys index

/-! ## The hash table -/

/-- Put a new key in a slot. -/
def hashAdd (index : K) (pos : Nat) : MpMap K V :=
  { map with
    allKeysAreQstrs := map.allKeysAreQstrs && keys.isQstr index
    used := map.used + 1
    table := map.table.set pos ⟨.key index, none⟩ }

/-- Delete the key in a slot; the slot becomes unused if the next one is. The value stays, so
that the caller can read it. -/
def hashRemove (pos : Nat) : MpMap K V :=
  { map with
    used := map.used - 1
    table := map.table.modify pos fun elem =>
      { elem with
        key := if map.table[(pos + 1) % map.alloc]?.map MpMapElem.key = some .null then .null
          else .sentinel } }

/-- One round of the loop of `mp_map_rehash`. -/
def rehashElem (add : MpMap K V → K → Option (MpMap K V × MpMapAnswer)) (map : MpMap K V)
    (elem : MpMapElem K V) : Option (MpMap K V) :=
  match elem.key with
  | .key key => do
      match ← add map key with
      | (map, .slot pos) => some (map.setValue pos elem.value)
      | _ => none
  | _ => some map

/-- `mp_map_rehash`, with the call of `mp_map_lookup` that adds a key. If the heap has no
room for the new table, the map is as it was. -/
def mpMapRehash (add : MpMap K V → K → Option (MpMap K V × MpMapAnswer)) (map : MpMap K V) :
    Option (MpMap K V × Bool) :=
  let newAlloc := getHashAllocGreaterOrEqualTo (map.alloc + 1)
  if heap newAlloc then do
    let fresh : MpMap K V :=
      { map with
        alloc := newAlloc
        used := 0
        allKeysAreQstrs := true
        table := List.replicate newAlloc ⟨.null, none⟩ }
    let map ← map.table.foldlM (rehashElem add) fresh
    some (map, true)
  else
    some (map, false)

/-- Rehash the map and search the new table. An exception leaves `mp_map_lookup`. -/
def rehashThen (add : MpMap K V → K → Option (MpMap K V × MpMapAnswer))
    (search : MpMap K V → Option (MpMap K V × MpMapAnswer)) (map : MpMap K V) :
    Option (MpMap K V × MpMapAnswer) := do
  match ← mpMapRehash heap add map with
  | (map, false) => some (map, .raised)
  | (map, true) => search map

/-- The loop of `mp_map_lookup` around a hash table. It starts again after a rehash. -/
def mpMapLookupHash (add : MpMap K V → K → Option (MpMap K V × MpMapAnswer)) (onlyPtrs : Bool)
    (index : K) (kind : MpMapLookupKind) : Nat → MpMap K V → Option (MpMap K V × MpMapAnswer)
  | 0, _ => none
  | tries + 1, map => do
      let start := keys.hash index % map.alloc
      let test key := decide (key = index) || (!onlyPtrs && keys.equal key index)
      match ← scan test (map.table.map MpMapElem.key) map.alloc start map.alloc start none with
      | .found pos =>
        if kind = .removeIfFound then some (map.hashRemove pos, .slot pos)
        else some (map, .slot pos)
      | .empty pos avail =>
        if kind = .addIfNotFound then
          some (map.hashAdd keys index (avail.getD pos), .slot (avail.getD pos))
        else
          some (map, .null)
      | .circled avail =>
        if kind ≠ .addIfNotFound then
          some (map, .null)
        else
          match avail with
          | some pos => some (map.hashAdd keys index pos, .slot pos)
          | none => rehashThen heap add (mpMapLookupHash add onlyPtrs index kind tries) map

/-- `mp_map_lookup`, with a bound on how deep the calls from `mp_map_rehash` may nest. -/
def mpMapLookupNested : Nat → MpMap K V → K → MpMapLookupKind → Option (MpMap K V × MpMapAnswer)
  | 0, _, _, _ => none
  | depth + 1, map, index, kind =>
    let add map key := mpMapLookupNested depth map key .addIfNotFound
    if map.allKeysAreQstrs = true ∧ keys.isQstr index = false ∧ keys.isStr index = false ∧
        kind ≠ .addIfNotFound then
      some (map, .null)
    else
      let onlyPtrs := map.allKeysAreQstrs && (keys.isQstr index || !keys.isStr index)
      if map.isOrdered then
        map.mpMapLookupOrdered keys heap onlyPtrs index kind
      else if map.alloc = 0 then
        if kind = .addIfNotFound then
          rehashThen heap add (mpMapLookupHash keys heap add onlyPtrs index kind 2) map
        else
          some (map, .null)
      else
        mpMapLookupHash keys heap add onlyPtrs index kind 2 map

def mpMapLookup (index : K) (kind : MpMapLookupKind) : Option (MpMap K V × MpMapAnswer) :=
  mpMapLookupNested keys heap 2 map index kind

end MpMap

/-! ## Keys -/

namespace MpKeys.Lawful

variable {K : Type} {keys : MpKeys K} (lawful : keys.Lawful)
include lawful

theorem equal_comm (one other : K) : keys.equal one other = keys.equal other one := by
  rw [Bool.eq_iff_iff]
  exact ⟨lawful.symm, lawful.symm⟩

theorem congruent : Assoc.Congruent keys.equal := ⟨lawful.symm, lawful.trans⟩

theorem not_equal_of_not_str {key index : K} (isQstr : keys.isQstr key = true)
    (notQstr : keys.isQstr index = false) (notStr : keys.isStr index = false) :
    keys.equal key index = false := by
  by_contra equal
  rw [Bool.not_eq_false] at equal
  rcases lawful.qstrOnly isQstr equal with qstr | str
  · rw [notQstr] at qstr
    cases qstr
  · rw [notStr] at str
    cases str

theorem ptrs_enough [DecidableEq K] {onlyPtrs : Bool} {key index : K}
    (ptrs : onlyPtrs = true → keys.isQstr key = true ∧
      (keys.isQstr index = true ∨ keys.isStr index = false)) :
    (decide (key = index) || (!onlyPtrs && keys.equal key index)) = keys.equal key index := by
  by_cases identical : key = index
  · rw [identical, lawful.refl]
    simp
  cases only : onlyPtrs with
  | false => simp [identical]
  | true =>
    obtain ⟨isQstr, kind⟩ := ptrs only
    have different : keys.equal key index = false := by
      cases qstr : keys.isQstr index with
      | false =>
        exact lawful.not_equal_of_not_str isQstr qstr (kind.resolve_left (by simp [qstr]))
      | true =>
        by_contra equal
        rw [Bool.not_eq_false] at equal
        exact identical (lawful.qstrsApart isQstr qstr equal)
    simp [identical, different]

end MpKeys.Lawful

/-- Keys that are compared as numbers and all have one of two hashes; the first ones are
interned strings. -/
def numberKeys : MpKeys Nat where
  isQstr key := key < 4
  isStr _ := false
  equal one other := one == other
  hash key := key % 2

theorem numberKeys_lawful : numberKeys.Lawful where
  refl key := by simp [numberKeys]
  symm same := by simp_all [numberKeys]
  trans first second := by simp_all [numberKeys]
  hash same := by simp_all [numberKeys]
  qstrsApart _ _ same := by simpa [numberKeys] using same
  qstrOnly isQstr same := by
    obtain rfl := eq_of_beq same
    exact Or.inl isQstr

end MultiPython.Map
