import MultiPython.Map.HashTable
import MultiPython.Qstr.Pool

/-!
# Comparing pointers only

`mp_map_lookup` compares pointers as long as `all_keys_are_qstrs` is set. The keys here are
objects of any kind, whose `binary_op` may compare them in any way: nothing is assumed of
equality except what `mp_obj_equal` itself makes sure of for interned strings (`QstrLaws`).
`Walkable` and `Packed` are what such keys leave of the invariants of a hash table and of an
ordered array.
-/

namespace MultiPython.Map

open Logic List Option

/-! ## Objects as keys -/

/-- A string that is not interned, by its address. Its `hash` is 0 if it was not computed. -/
structure MpObjStr (config : Qstr.QstrConfig) where
  address : Nat
  hash : Nat
  data : List UInt8
  valid : hash = 0 ∨ hash = Qstr.qstrComputeHash config data
deriving DecidableEq

/-- An object: a small integer, an interned string, another string, or anything else, by its
address. -/
inductive MpObj (config : Qstr.QstrConfig) where
  | smallInt (value : Int)
  | qstr (q : Nat)
  | str (string : MpObjStr config)
  | other (address : Nat)
deriving DecidableEq

/-- What is known of the objects: the data of each interned string, the address of `None`,
which objects are floats or complex numbers, what `MP_BINARY_OP_EQUAL` of their types yields
(`none` is `MP_OBJ_NULL`), and their hash (`none` if they have no hash). -/
structure ObjWorld (config : Qstr.QstrConfig) where
  qstrData : Nat → List UInt8
  constNone : Nat
  isFloat : Nat → Bool
  binaryOpEqual : Nat → MpObj config → Option Bool
  hash : Nat → Option Int

variable {config : Qstr.QstrConfig} (world : ObjWorld config)

def mpObjIsQstr : MpObj config → Bool
  | .qstr _ => true
  | _ => false

/-- `mp_obj_is_type(o, &mp_type_str)`: an interned string has no type field. -/
def mpObjIsTypeStr : MpObj config → Bool
  | .str _ => true
  | _ => false

def mpObjIsStr (o : MpObj config) : Bool := mpObjIsQstr o || mpObjIsTypeStr o

def getStrHash : MpObj config → Nat
  | .qstr q => Qstr.qstrComputeHash config (world.qstrData q)
  | .str string => string.hash
  | _ => 0

/-- `GET_STR_DATA_LEN`. -/
def getStrData : MpObj config → List UInt8
  | .qstr q => world.qstrData q
  | .str string => string.data
  | _ => []

def mpObjStrEqual (s1 s2 : MpObj config) : Bool :=
  if mpObjIsQstr s1 && mpObjIsQstr s2 then s1 == s2
  else if getStrHash world s1 ≠ 0 ∧ getStrHash world s2 ≠ 0 ∧
      getStrHash world s1 ≠ getStrHash world s2 then false
  else getStrData world s1 == getStrData world s2

/-- The comparison of `mp_obj_equal` once `o1` is no small integer. -/
def equalStrOrGeneric (o1 o2 : MpObj config) : Bool :=
  if mpObjIsStr o1 then mpObjIsStr o2 && mpObjStrEqual world o1 o2
  else if mpObjIsStr o2 then false
  else
    match o1 with
    | .other address => (world.binaryOpEqual address o2).getD false
    | _ => false

/-- `mp_obj_is_float` or a complex number, which may be different from itself. -/
def mpObjIsFloat : MpObj config → Bool
  | .other address => world.isFloat address
  | _ => false

def mpObjEqual (o1 o2 : MpObj config) : Bool :=
  if o1 = o2 ∧ mpObjIsFloat world o1 = false then true
  else if o1 = .other world.constNone ∨ o2 = .other world.constNone then false
  else
    match o1, o2 with
    | .smallInt _, .smallInt _ => false
    | .smallInt _, o2 => equalStrOrGeneric world o2 o1
    | o1, o2 => equalStrOrGeneric world o1 o2

/-- `MP_UNARY_OP_HASH`, as an `mp_uint_t`; `none` is an exception. -/
def mpObjHash : MpObj config → Option Nat
  | .smallInt value => some (value % 2 ^ config.wordBits).toNat
  | .qstr q => some (Qstr.qstrComputeHash config (world.qstrData q))
  | .str string =>
    some (if string.hash = 0 then Qstr.qstrComputeHash config string.data else string.hash)
  | .other address => (world.hash address).map fun value => (value % 2 ^ config.wordBits).toNat

/-- The objects as keys. -/
def objKeys : MpKeys (MpObj config) where
  isQstr := mpObjIsQstr
  isStr := mpObjIsTypeStr
  equal := mpObjEqual world
  hash o := (mpObjHash world o).getD 0

/-! ## What equality says about interned strings -/

/-- Interned strings are compared by identity, with other strings by what they hold, and are
equal to nothing else. -/
structure MpKeys.QstrLaws {K : Type} (keys : MpKeys K) : Prop where
  identity : ∀ {key index}, keys.isQstr key = true → keys.isQstr index = true →
    (keys.equal key index = true ↔ key = index)
  hash : ∀ {key index}, keys.isQstr key = true → keys.equal key index = true →
    keys.hash key = keys.hash index
  stringsOnly : ∀ {key index}, keys.isQstr key = true → keys.isQstr index = false →
    keys.isStr index = false → keys.equal key index = false
  notBoth : ∀ {key}, keys.isQstr key = true → keys.isStr key = false

theorem mpObjEqual_qstr (q : Nat) (index : MpObj config) :
    mpObjEqual world (.qstr q) index =
      match index with
      | .qstr other => decide (q = other)
      | .str string => mpObjStrEqual world (.qstr q) (.str string)
      | _ => false := by
  cases index with
  | qstr other =>
    by_cases same : q = other
    · simp [mpObjEqual, mpObjIsFloat, same]
    · simp [mpObjEqual, equalStrOrGeneric, mpObjStrEqual, mpObjIsStr, mpObjIsQstr, same]
  | smallInt value =>
    simp [mpObjEqual, equalStrOrGeneric, mpObjIsStr, mpObjIsQstr, mpObjIsTypeStr]
  | str string => simp [mpObjEqual, equalStrOrGeneric, mpObjIsStr, mpObjIsQstr, mpObjIsTypeStr]
  | other address =>
    simp [mpObjEqual, equalStrOrGeneric, mpObjIsStr, mpObjIsQstr, mpObjIsTypeStr]

theorem hash_eq_of_strEqual {q : Nat} {string : MpObjStr config}
    (same : mpObjStrEqual world (.qstr q) (.str string) = true) :
    Qstr.qstrComputeHash config (world.qstrData q) =
      if string.hash = 0 then Qstr.qstrComputeHash config string.data else string.hash := by
  simp only [mpObjStrEqual, mpObjIsQstr, Bool.and_false, Bool.false_eq_true, if_false] at same
  split at same
  · cases same
  · have data : world.qstrData q = string.data := by simpa [getStrData] using same
    rcases string.valid with unset | computed
    · rw [if_pos unset, data]
    · rw [computed, data, ite_self]

theorem objKeys_qstrLaws : (objKeys world).QstrLaws where
  identity {key index} isQstr indexQstr := by
    cases key <;> cases index <;> simp_all [objKeys, mpObjIsQstr, mpObjEqual_qstr]
  hash {key index} isQstr same := by
    cases key with
    | qstr q =>
      cases index with
      | qstr other => simp_all [objKeys, mpObjEqual_qstr]
      | str string =>
        simp only [objKeys, mpObjEqual_qstr] at same
        simp only [objKeys, mpObjHash, getD_some]
        exact hash_eq_of_strEqual world same
      | smallInt value => simp [objKeys, mpObjEqual_qstr] at same
      | other address => simp [objKeys, mpObjEqual_qstr] at same
    | smallInt value => cases isQstr
    | str string => cases isQstr
    | other address => cases isQstr
  stringsOnly {key index} isQstr notQstr notStr := by
    cases key <;> cases index <;>
      simp_all [objKeys, mpObjIsQstr, mpObjIsTypeStr, mpObjEqual_qstr]
  notBoth {key} isQstr := by
    cases key <;> simp_all [objKeys, mpObjIsQstr, mpObjIsTypeStr]

/-- `mp_map_lookup` with the call of `mp_unary_op`, which raises an exception if the index has
no hash. An empty table has been enlarged by then. -/
def MpMap.mpMapLookupHashing {K V : Type} [DecidableEq K] (keys : MpKeys K) (hashable : K → Bool)
    (heap : Nat → Bool) (map : MpMap K V) (index : K) (kind : MpMapLookupKind) :
    Option (MpMap K V × MpMapAnswer) :=
  let returnsEarly := map.allKeysAreQstrs = true ∧ keys.isQstr index = false ∧
    keys.isStr index = false ∧ kind ≠ .addIfNotFound
  if hashable index = true ∨ map.isOrdered = true ∨ returnsEarly ∨
      (map.alloc = 0 ∧ kind ≠ .addIfNotFound) then
    map.mpMapLookup keys heap index kind
  else if map.alloc = 0 then do
    let (map, _) ← mpMapRehash heap
      (fun map key => mpMapLookupNested keys heap 1 map key .addIfNotFound) map
    some (map, .raised)
  else
    some (map, .raised)

/-! ## Tables whose keys are compared in any way -/

variable {K V : Type} {keys : MpKeys K}

/-- The keys of the slots. -/
def MpMap.slots (map : MpMap K V) : List (Slot K) := map.table.map MpMapElem.key

variable {key : K}

theorem MpMap.mem_slots {map : MpMap K V} :
    .key key ∈ map.slots ↔ ∃ value, (key, value) ∈ map.entries := by
  rw [slots, mem_iff_getElem?]
  constructor
  · rintro ⟨pos, here⟩
    obtain ⟨value, there⟩ := slot_eq_key.mp here
    exact ⟨value, mem_entries.mpr ⟨pos, there⟩⟩
  · rintro ⟨value, member⟩
    obtain ⟨pos, there⟩ := mem_entries.mp member
    exact ⟨pos, slot_eq_key.mpr ⟨value, there⟩⟩

/-- The flag is set only if all keys are interned strings. -/
def FlagTells (keys : MpKeys K) (map : MpMap K V) : Prop :=
  map.allKeysAreQstrs = true → ∀ key, .key key ∈ map.slots → keys.isQstr key = true

/-- A hash table between two calls, whatever equality does. -/
structure Walkable (keys : MpKeys K) (map : MpMap K V) : Prop where
  unordered : map.isOrdered = false
  sized : map.table.length = map.alloc
  reaches : Reaches keys.hash map.slots
  flag : FlagTells keys map

theorem Walkable.init (n : Nat) : Walkable keys (MpMap.mpMapInit n : MpMap K V) := by
  refine ⟨rfl, by simp [MpMap.mpMapInit], ?_, ?_⟩
  · simp only [MpMap.slots, MpMap.mpMapInit, map_replicate]
    exact .replicate n
  · intro _ key member
    simp [MpMap.slots, MpMap.mpMapInit] at member

variable {after : MpMap K V}

section Changing

variable {map : MpMap K V} {index : K} {pos : Nat}

theorem MpMap.slots_setValue (value : Option V) : (map.setValue pos value).slots = map.slots :=
  setValue_keys value

theorem Walkable.setValue (walkable : Walkable keys map) (value : Option V) :
    Walkable keys (map.setValue pos value) := by
  refine ⟨walkable.unordered, by simpa [MpMap.setValue] using walkable.sized, ?_, ?_⟩
  · rw [MpMap.slots_setValue]
    exact walkable.reaches
  · rw [FlagTells, MpMap.slots_setValue]
    exact walkable.flag

theorem FlagTells.set (tells : FlagTells keys map)
    (flag : after.allKeysAreQstrs = (map.allKeysAreQstrs && keys.isQstr index))
    (slots : after.slots = map.slots.set pos (.key index)) : FlagTells keys after := by
  intro isSet key member
  rw [flag, Bool.and_eq_true] at isSet
  rw [slots] at member
  rcases mem_or_eq_of_mem_set member with before | new
  · exact tells isSet.1 key before
  · cases new
    exact isSet.2

theorem Walkable.hashAdd (walkable : Walkable keys map)
    (free : FreeFor keys.hash map.slots index pos) : Walkable keys (map.hashAdd keys index pos) := by
  have slots : (map.hashAdd keys index pos).slots = map.slots.set pos (.key index) := by
    simp [MpMap.slots, MpMap.hashAdd, map_set]
  refine ⟨walkable.unordered, by simpa [MpMap.hashAdd] using walkable.sized, ?_,
    walkable.flag.set rfl slots⟩
  rw [slots]
  exact walkable.reaches.insert_free free

theorem MpMap.length_hashAdd (free : FreeFor keys.hash map.slots index pos) :
    (map.hashAdd keys index pos).entries.length = map.entries.length + 1 := by
  obtain ⟨slot, here, notKey⟩ := free.free
  obtain ⟨elem, there, isFree⟩ := slot_free notKey here
  have changed := filterMap_set_perm slotEntry there (⟨.key index, none⟩ : MpMapElem K V)
  rw [isFree] at changed
  exact changed.length_eq

theorem map_key_modify (table : List (MpMapElem K V)) (pos : Nat) (slot : Slot K) :
    (table.modify pos fun elem => { elem with key := slot }).map MpMapElem.key =
      (table.map MpMapElem.key).set pos slot := by
  refine ext_getElem? fun other => ?_
  rw [List.getElem?_map, List.getElem?_modify, List.getElem?_set]
  by_cases isHere : pos = other
  · subst isHere
    by_cases inside : pos < table.length
    · simp [inside]
    · simp [inside]
  · simp [isHere]

theorem Walkable.hashRemove [DecidableEq K] (walkable : Walkable keys map) :
    Walkable keys (map.hashRemove pos) := by
  obtain ⟨slot, isSlot, isFree, reaches⟩ : ∃ slot,
      (map.hashRemove pos).slots = map.slots.set pos slot ∧ (∀ other, slot ≠ .key other) ∧
        Reaches keys.hash (map.slots.set pos slot) := by
    have removed := map_key_modify map.table pos
    by_cases next : map.table[(pos + 1) % map.alloc]?.map MpMapElem.key = some .null
    · refine ⟨.null, ?_, by simp, walkable.reaches.set_null ?_⟩
      · simp only [MpMap.slots, MpMap.hashRemove, next, if_true, removed]
      · rw [MpMap.slots, length_map, walkable.sized, List.getElem?_map]
        exact next
    · refine ⟨.sentinel, ?_, by simp, walkable.reaches.set_sentinel pos⟩
      simp only [MpMap.slots, MpMap.hashRemove, next, if_false, removed]
  refine ⟨walkable.unordered, by simpa [MpMap.hashRemove] using walkable.sized, ?_, ?_⟩
  · rw [isSlot]
    exact reaches
  · intro isSet key member
    rw [isSlot] at member
    rcases mem_or_eq_of_mem_set member with before | new
    · exact walkable.flag isSet key before
    · exact absurd new.symm (isFree key)

end Changing

/-! ## Searching the hash table -/

section Searching

variable [DecidableEq K] (heap : Nat → Bool) {map : MpMap K V} {index : K} {onlyPtrs : Bool}

/-- The test of a search. -/
def slotTest (keys : MpKeys K) (onlyPtrs : Bool) (index key : K) : Bool :=
  decide (key = index) || (!onlyPtrs && keys.equal key index)

/-- What a search of a table that is not empty does, for every kind. -/
theorem Walkable.lookupHash_cases (walkable : Walkable keys map) (some_ : map.alloc ≠ 0)
    (add : MpMap K V → K → Option (MpMap K V × MpMapAnswer)) (onlyPtrs : Bool) (index : K)
    (kind : MpMapLookupKind) (tries : Nat) :
    (∃ pos key value, map.table[pos]? = some ⟨.key key, value⟩ ∧
        slotTest keys onlyPtrs index key = true ∧
        MpMap.mpMapLookupHash keys heap add onlyPtrs index kind (tries + 1) map =
          if kind = .removeIfFound then some (map.hashRemove pos, .slot pos)
          else some (map, .slot pos)) ∨
      (kind ≠ .addIfNotFound ∧
        MpMap.mpMapLookupHash keys heap add onlyPtrs index kind (tries + 1) map = some (map, .null)) ∨
      (kind = .addIfNotFound ∧ ∃ pos, FreeFor keys.hash map.slots index pos ∧
        MpMap.mpMapLookupHash keys heap add onlyPtrs index kind (tries + 1) map =
          some (map.hashAdd keys index pos, .slot pos)) ∨
      (kind = .addIfNotFound ∧ map.entries.length = map.alloc ∧
        MpMap.mpMapLookupHash keys heap add onlyPtrs index kind (tries + 1) map =
          MpMap.rehashThen heap add (MpMap.mpMapLookupHash keys heap add onlyPtrs index kind tries)
            map) := by
  have length : map.slots.length = map.alloc := by
    rw [MpMap.slots, length_map, walkable.sized]
  obtain ⟨result, ran, ended⟩ := scan_ended keys.hash map.slots (slotTest keys onlyPtrs index) index
    (by omega)
  rw [length] at ran
  have ran : scan (fun key => decide (key = index) || (!onlyPtrs && keys.equal key index))
      (map.table.map MpMapElem.key) map.alloc (keys.hash index % map.alloc) map.alloc
      (keys.hash index % map.alloc) none = some result := ran
  cases ended with
  | @found pos key here tested =>
    obtain ⟨value, there⟩ := MpMap.slot_eq_key.mp here
    exact .inl ⟨pos, key, value, there, tested, by simp [MpMap.mpMapLookupHash, ran]⟩
  | @empty pos avail free =>
    by_cases isAdd : kind = .addIfNotFound
    · exact .inr (.inr (.inl ⟨isAdd, _, free, by simp [MpMap.mpMapLookupHash, ran, isAdd]⟩))
    · exact .inr (.inl ⟨isAdd, by simp [MpMap.mpMapLookupHash, ran, isAdd]⟩)
  | @circled pos free =>
    by_cases isAdd : kind = .addIfNotFound
    · exact .inr (.inr (.inl ⟨isAdd, _, free, by simp [MpMap.mpMapLookupHash, ran, isAdd]⟩))
    · exact .inr (.inl ⟨isAdd, by simp [MpMap.mpMapLookupHash, ran, isAdd]⟩)
  | full onlyKeys =>
    by_cases isAdd : kind = .addIfNotFound
    · refine .inr (.inr (.inr ⟨isAdd, ?_, by simp [MpMap.mpMapLookupHash, ran, isAdd]⟩))
      rw [MpMap.entries, length_filterMap_eq_countP, ← walkable.sized, countP_eq_length]
      intro elem member
      obtain ⟨key, isKey⟩ := onlyKeys _ (List.mem_map_of_mem member)
      simp [MpMap.slotEntry, isKey]
    · exact .inr (.inl ⟨isAdd, by simp [MpMap.mpMapLookupHash, ran, isAdd]⟩)

theorem Walkable.add_roomy (walkable : Walkable keys map) (roomy : map.entries.length < map.alloc)
    (index : K) (depth : Nat) :
    ∃ after pos, MpMap.mpMapLookupNested keys heap (depth + 1) map index .addIfNotFound =
        some (after, .slot pos) ∧ Walkable keys after ∧ after.alloc = map.alloc ∧
      after.entries.length ≤ map.entries.length + 1 ∧
      ∃ key value, after.table[pos]? = some ⟨.key key, value⟩ := by
  have some_ : map.alloc ≠ 0 := by omega
  have unfolded : MpMap.mpMapLookupNested keys heap (depth + 1) map index .addIfNotFound =
      MpMap.mpMapLookupHash keys heap
        (MpMap.addNested keys heap depth)
        (map.allKeysAreQstrs && (keys.isQstr index || !keys.isStr index)) index .addIfNotFound 2
        map := by
    simp only [MpMap.mpMapLookupNested, walkable.unordered, some_, ne_eq, not_true_eq_false,
      and_false, if_false, Bool.false_eq_true]
  rw [unfolded]
  rcases walkable.lookupHash_cases heap some_ _ _ index .addIfNotFound 1 with
    ⟨pos, key, value, here, _, ran⟩ | ⟨notAdd, _⟩ | ⟨_, pos, free, ran⟩ | ⟨_, full, _⟩
  · exact ⟨map, pos, ran, walkable, rfl, by omega, key, value, here⟩
  · exact absurd rfl notAdd
  · refine ⟨_, pos, ran, walkable.hashAdd free, rfl, (MpMap.length_hashAdd free).le, index, none, ?_⟩
    obtain ⟨slot, here, notKey⟩ := free.free
    obtain ⟨elem, there, _⟩ := MpMap.slot_free notKey here
    obtain ⟨inside, _⟩ := List.getElem?_eq_some_iff.mp there
    simp [MpMap.hashAdd, inside]
  · omega

/-- The loop of `mp_map_rehash` ends, with no more entries than there were. -/
theorem Walkable.rehash_loop (depth : Nat) (todo : List (MpMapElem K V)) {fresh : MpMap K V}
    (walkable : Walkable keys fresh) (roomy : fresh.entries.length + todo.length ≤ fresh.alloc) :
    ∃ after, todo.foldlM (MpMap.rehashElem fun map key =>
        MpMap.mpMapLookupNested keys heap (depth + 1) map key .addIfNotFound) fresh = some after ∧
      Walkable keys after ∧ after.alloc = fresh.alloc ∧
      after.entries.length ≤ fresh.entries.length + todo.length := by
  induction todo generalizing fresh with
  | nil => exact ⟨fresh, rfl, walkable, rfl, le_rfl⟩
  | cons elem rest ih =>
    rw [length_cons] at roomy
    rw [foldlM_cons, length_cons]
    obtain ⟨slot, value⟩ := elem
    cases slot with
    | key key =>
      obtain ⟨added, pos, ran, walkableAdded, alloc, more, _, old, here⟩ :=
        walkable.add_roomy heap (by omega) key depth
      obtain ⟨others, split⟩ := MpMap.entries_split here
      have length : (added.setValue pos value).entries.length = added.entries.length := by
        rw [(MpMap.setValue_entries here split value).length_eq, split.length_eq,
          length_cons, length_cons]
      have allocSet : (added.setValue pos value).alloc = fresh.alloc := alloc
      have walkableSet : Walkable keys (added.setValue pos value) := walkableAdded.setValue value
      obtain ⟨after, ranRest, walkableAfter, allocAfter, few⟩ :=
        ih walkableSet (by omega)
      refine ⟨after, ?_, walkableAfter, allocAfter.trans allocSet, by omega⟩
      simp only [MpMap.rehashElem, ran]
      exact ranRest
    | null =>
      obtain ⟨after, ran, walkableAfter, alloc, few⟩ :=
        ih walkable (by omega)
      exact ⟨after, ran, walkableAfter, alloc, by omega⟩
    | sentinel =>
      obtain ⟨after, ran, walkableAfter, alloc, few⟩ :=
        ih walkable (by omega)
      exact ⟨after, ran, walkableAfter, alloc, by omega⟩

/-- `mp_map_rehash` enlarges the table, or leaves the map as it was. -/
theorem Walkable.rehash (walkable : Walkable keys map) (depth : Nat) :
    MpMap.mpMapRehash heap (MpMap.addNested keys heap (depth + 1)) map =
          some (map, false) ∨
      ∃ after, MpMap.mpMapRehash heap (MpMap.addNested keys heap (depth + 1)) map =
            some (after, true) ∧
        Walkable keys after ∧ map.alloc < after.alloc ∧ after.entries.length < after.alloc := by
  have larger := le_getHashAllocGreaterOrEqualTo (map.alloc + 1)
  cases hasRoom : heap (getHashAllocGreaterOrEqualTo (map.alloc + 1)) with
  | false => exact .inl (by simp [MpMap.mpMapRehash, hasRoom])
  | true =>
    let fresh : MpMap K V :=
      { map with
        alloc := getHashAllocGreaterOrEqualTo (map.alloc + 1)
        used := 0
        allKeysAreQstrs := true
        table := List.replicate (getHashAllocGreaterOrEqualTo (map.alloc + 1)) ⟨.null, none⟩ }
    have nothing : fresh.entries = [] := by simp [fresh, MpMap.entries, MpMap.slotEntry]
    have freshWalkable : Walkable keys fresh := by
      refine ⟨walkable.unordered, by simp [fresh], ?_, ?_⟩
      · simp only [fresh, MpMap.slots, map_replicate]
        exact .replicate _
      · intro _ key member
        simp [fresh, MpMap.slots] at member
    have alloc : fresh.alloc = getHashAllocGreaterOrEqualTo (map.alloc + 1) := rfl
    have roomy : fresh.entries.length + map.table.length ≤ fresh.alloc := by
      rw [nothing, walkable.sized, length_nil]
      omega
    obtain ⟨after, ran, walkableAfter, allocAfter, few⟩ :=
      freshWalkable.rehash_loop heap depth map.table roomy
    rw [nothing, walkable.sized, length_nil] at few
    refine .inr ⟨after, ?_, walkableAfter, by omega, by omega⟩
    simp only [MpMap.mpMapRehash, hasRoom, if_true]
    exact congrArg (fun moved => Option.bind moved fun map => some (map, true)) ran

theorem Walkable.rehashThen (walkable : Walkable keys map) (onlyPtrs : Bool) (index : K)
    (tries : Nat) :
    MpMap.rehashAdd keys heap onlyPtrs index (tries + 1) map = some (map, .raised) ∨
      ∃ after pos, MpMap.rehashAdd keys heap onlyPtrs index (tries + 1) map = some (after, .slot pos) ∧
        Walkable keys after ∧ map.alloc < after.alloc := by
  rcases walkable.rehash heap 0 with ran | ⟨larger, ran, walkableLarger, more, roomy⟩
  · exact .inl (by simp [MpMap.rehashAdd, MpMap.rehashThen, ran])
  rcases walkableLarger.lookupHash_cases heap (by omega)
      (MpMap.addNested keys heap 1) onlyPtrs index
      .addIfNotFound tries with
    ⟨pos, key, value, _, _, walked⟩ | ⟨notAdd, _⟩ | ⟨_, pos, free, walked⟩ | ⟨_, full, _⟩
  · exact .inr ⟨larger, pos, by simpa [MpMap.rehashAdd, MpMap.rehashThen, ran] using walked,
      walkableLarger, more⟩
  · exact absurd rfl notAdd
  · exact .inr ⟨_, pos, by simpa [MpMap.rehashAdd, MpMap.rehashThen, ran] using walked,
      walkableLarger.hashAdd free, more⟩
  · omega

/-- Adding a key to any table ends. -/
theorem Walkable.add_cases (walkable : Walkable keys map) (index : K) :
    map.mpMapLookup keys heap index .addIfNotFound = some (map, .raised) ∨
      ∃ after pos, map.mpMapLookup keys heap index .addIfNotFound = some (after, .slot pos) ∧
        Walkable keys after := by
  let onlyPtrs := map.allKeysAreQstrs && (keys.isQstr index || !keys.isStr index)
  by_cases empty : map.alloc = 0
  · have unfolded : map.mpMapLookup keys heap index .addIfNotFound =
        MpMap.rehashAdd keys heap onlyPtrs index 2 map := by
      rw [MpMap.mpMapLookup, MpMap.mpMapLookupNested]
      simp [walkable.unordered, empty, onlyPtrs]
    rw [unfolded]
    rcases walkable.rehashThen heap onlyPtrs index 1 with ran | ⟨after, pos, ran, walkableAfter, _⟩
    · exact .inl ran
    · exact .inr ⟨after, pos, ran, walkableAfter⟩
  · have unfolded : map.mpMapLookup keys heap index .addIfNotFound = MpMap.mpMapLookupHash keys heap
        (MpMap.addNested keys heap 1)
        onlyPtrs index .addIfNotFound 2 map := by
      rw [MpMap.mpMapLookup, MpMap.mpMapLookupNested]
      simp [walkable.unordered, empty, onlyPtrs]
    rw [unfolded]
    rcases walkable.lookupHash_cases heap empty
        (MpMap.addNested keys heap 1) onlyPtrs index
        .addIfNotFound 1 with
      ⟨pos, key, value, _, _, ran⟩ | ⟨notAdd, _⟩ | ⟨_, pos, free, ran⟩ | ⟨_, _, ran⟩
    · exact .inr ⟨map, pos, ran, walkable⟩
    · exact absurd rfl notAdd
    · exact .inr ⟨_, pos, ran, walkable.hashAdd free⟩
    · rw [ran]
      rcases walkable.rehashThen heap onlyPtrs index 0 with ran | ⟨after, pos, ran, walkableAfter, _⟩
      · exact .inl ran
      · exact .inr ⟨after, pos, ran, walkableAfter⟩

end Searching

/-! ## Searching while the flag is set -/

theorem MpKeys.QstrLaws.slotTest_eq [DecidableEq K] (laws : keys.QstrLaws)
    (isQstr : keys.isQstr key = true) (index : K) :
    slotTest keys (keys.isQstr index || !keys.isStr index) index key = keys.equal key index := by
  cases indexQstr : keys.isQstr index with
  | true =>
    have same := laws.identity isQstr indexQstr
    simp only [slotTest, Bool.true_or, Bool.not_true, Bool.false_and, Bool.or_false]
    rw [Bool.eq_iff_iff, decide_eq_true_iff]
    exact same.symm
  | false =>
    have different : key ≠ index := by
      rintro rfl
      rw [isQstr] at indexQstr
      cases indexQstr
    cases indexStr : keys.isStr index with
    | true => simp [slotTest, different]
    | false => simp [slotTest, different, laws.stringsOnly isQstr indexQstr indexStr]

/-- What a search does whose result is that of comparing all entries: it finds an equal key,
or there is none, and then it gives nothing, or has changed the map. -/
inductive Searched [DecidableEq K] (keys : MpKeys K) (heap : Nat → Bool) (map : MpMap K V)
    (index : K) (kind : MpMapLookupKind) : Prop where
  | found {key value at_ after pos} (here : map.table[at_]? = some ⟨.key key, value⟩)
      (same : keys.equal key index = true)
      (ran : map.mpMapLookup keys heap index kind = some (after, .slot pos))
      (kept : kind ≠ .removeIfFound → after = map ∧ pos = at_)
  | absent (unequal : ∀ key, .key key ∈ map.slots → keys.equal key index = false)
      (null : kind ≠ .addIfNotFound → map.mpMapLookup keys heap index kind = some (map, .null))
      (new : kind = .addIfNotFound → ∀ after pos,
        map.mpMapLookup keys heap index kind = some (after, .slot pos) → after ≠ map)

section Hash

variable [DecidableEq K] (heap : Nat → Bool) {map : MpMap K V}

/-- A search of the hash table finds a key that passes the test, if the hashes of such keys
are that of the index. -/
theorem Walkable.lookupHash_found (walkable : Walkable keys map) {index : K} {onlyPtrs : Bool}
    (sameHash : ∀ key, .key key ∈ map.slots → slotTest keys onlyPtrs index key = true →
      keys.hash key = keys.hash index) (member : .key key ∈ map.slots)
    (tested : slotTest keys onlyPtrs index key = true)
    (add : MpMap K V → K → Option (MpMap K V × MpMapAnswer)) (kind : MpMapLookupKind) (tries : Nat) :
    ∃ pos key value, map.table[pos]? = some ⟨.key key, value⟩ ∧
      slotTest keys onlyPtrs index key = true ∧
      MpMap.mpMapLookupHash keys heap add onlyPtrs index kind (tries + 1) map =
        if kind = .removeIfFound then some (map.hashRemove pos, .slot pos)
        else some (map, .slot pos) := by
  have length : map.slots.length = map.alloc := by
    rw [MpMap.slots, length_map, walkable.sized]
  obtain ⟨result, ran, located⟩ :=
    walkable.reaches.scan_located (length_pos_of_mem member) sameHash
  rw [length] at ran
  have ran : scan (fun key => decide (key = index) || (!onlyPtrs && keys.equal key index))
      (map.table.map MpMapElem.key) map.alloc (keys.hash index % map.alloc) map.alloc
      (keys.hash index % map.alloc) none = some result := ran
  cases located with
  | @found pos other here passes =>
    obtain ⟨value, there⟩ := MpMap.slot_eq_key.mp here
    exact ⟨pos, other, value, there, passes, by simp [MpMap.mpMapLookupHash, ran]⟩
  | empty absent => exact absurd tested (by simp [absent key member])
  | circled absent => exact absurd tested (by simp [absent key member])
  | full absent => exact absurd tested (by simp [absent key member])

theorem Walkable.searched (walkable : Walkable keys map) (laws : keys.QstrLaws)
    (isSet : map.allKeysAreQstrs = true) (index : K) (kind : MpMapLookupKind) :
    Searched keys heap map index kind := by
  have qstrs := walkable.flag isSet
  by_cases early : keys.isQstr index = false ∧ keys.isStr index = false ∧ kind ≠ .addIfNotFound
  · refine .absent (fun key member => laws.stringsOnly (qstrs key member) early.1 early.2.1)
      (fun _ => ?_) fun isAdd => absurd isAdd early.2.2
    rw [MpMap.mpMapLookup, MpMap.mpMapLookupNested, if_pos ⟨isSet, early⟩]
  by_cases empty : map.alloc = 0
  · have noSlot : map.slots = [] := by
      rw [MpMap.slots, map_eq_nil_iff]
      exact eq_nil_of_length_eq_zero (walkable.sized.trans empty)
    refine .absent (by simp [noSlot]) (fun notAdd => ?_) fun isAdd after pos ran same => ?_
    · rw [MpMap.mpMapLookup, MpMap.mpMapLookupNested, if_neg (by simp_all)]
      simp [walkable.unordered, empty, notAdd]
    · have unfolded : map.mpMapLookup keys heap index .addIfNotFound = MpMap.rehashAdd keys heap
          (map.allKeysAreQstrs && (keys.isQstr index || !keys.isStr index)) index 2 map := by
        rw [MpMap.mpMapLookup, MpMap.mpMapLookupNested]
        simp [walkable.unordered, empty]
      rw [isAdd, unfolded] at ran
      rcases walkable.rehashThen heap (map.allKeysAreQstrs && (keys.isQstr index || !keys.isStr index))
        index 1 with raised | ⟨other, otherPos, slot, _, more⟩
      · rw [raised] at ran
        cases ran
      · rw [slot] at ran
        cases ran
        exact absurd more (by simp [same])
  -- The table is searched with the test that the flag allows, which is equality here.
  have unfolded : map.mpMapLookup keys heap index kind = MpMap.mpMapLookupHash keys heap
      (MpMap.addNested keys heap 1)
      (keys.isQstr index || !keys.isStr index) index kind 2 map := by
    rw [MpMap.mpMapLookup, MpMap.mpMapLookupNested, if_neg fun returns => early returns.2]
    simp [walkable.unordered, empty, isSet]
  have testIs : ∀ key, .key key ∈ map.slots →
      slotTest keys (keys.isQstr index || !keys.isStr index) index key = keys.equal key index :=
    fun key member => laws.slotTest_eq (qstrs key member) index
  by_cases equal : ∃ key, .key key ∈ map.slots ∧ keys.equal key index = true
  · obtain ⟨key, member, same⟩ := equal
    obtain ⟨pos, other, value, here, tested, ran⟩ := walkable.lookupHash_found heap
      (fun key member tested => laws.hash (qstrs key member) (testIs key member ▸ tested)) member
      ((testIs key member).trans same)
      (MpMap.addNested keys heap 1) kind 1
    rw [← unfolded] at ran
    have otherMember : .key other ∈ map.slots :=
      MpMap.mem_slots.mpr ⟨value, MpMap.mem_entries.mpr ⟨pos, here⟩⟩
    have otherSame : keys.equal other index = true := testIs other otherMember ▸ tested
    by_cases remove : kind = .removeIfFound
    · rw [if_pos remove] at ran
      exact .found here otherSame ran fun notRemove => absurd remove notRemove
    · rw [if_neg remove] at ran
      exact .found here otherSame ran fun _ => ⟨rfl, rfl⟩
  · have unequal : ∀ key, .key key ∈ map.slots → keys.equal key index = false := by
      intro key member
      rw [← Bool.not_eq_true]
      exact fun same => equal ⟨key, member, same⟩
    rcases walkable.lookupHash_cases heap empty
        (MpMap.addNested keys heap 1)
        (keys.isQstr index || !keys.isStr index) index kind 1 with
      ⟨pos, key, value, here, tested, _⟩ | ⟨notAdd, ran⟩ | ⟨isAdd, pos, free, ran⟩ |
      ⟨isAdd, full, ran⟩
    · have member : .key key ∈ map.slots :=
        MpMap.mem_slots.mpr ⟨value, MpMap.mem_entries.mpr ⟨pos, here⟩⟩
      rw [testIs key member, unequal key member] at tested
      cases tested
    · exact .absent unequal (fun _ => unfolded.trans ran) fun isAdd => absurd isAdd notAdd
    · refine .absent unequal (fun notAdd => absurd isAdd notAdd) fun _ after other found same => ?_
      rw [unfolded, ran] at found
      cases found
      exact absurd (congrArg MpMap.used same) (by simp [MpMap.hashAdd])
    · refine .absent unequal (fun notAdd => absurd isAdd notAdd) fun _ after other found same => ?_
      rw [unfolded, ran, isAdd] at found
      rcases walkable.rehashThen heap (keys.isQstr index || !keys.isStr index) index 0 with
        raised | ⟨larger, largerPos, slot, _, more⟩
      · rw [MpMap.rehashAdd] at raised
        rw [raised] at found
        cases found
      · rw [MpMap.rehashAdd] at slot
        rw [slot] at found
        cases found
        exact absurd more (by simp [same])

end Hash

/-! ## The ordered array -/

/-- An ordered array between two calls, whatever equality does: the slots in use are the first
ones. -/
structure Packed (keys : MpKeys K) (map : MpMap K V) : Prop where
  ordered : map.isOrdered = true
  packed : ∃ (front : List K) (rest : List (Slot K)), map.slots = front.map Slot.key ++ rest ∧ front.length = map.used ∧
    ∀ key, .key key ∉ rest
  flag : FlagTells keys map

variable {answer : MpMapAnswer}

section Ordered

variable {map : MpMap K V}

section

variable (packed : Packed keys map)

include packed

variable {pos : Nat}

theorem Packed.filled (inside : pos < map.used) :
    ∃ key value, map.table[pos]? = some ⟨.key key, value⟩ := by
  obtain ⟨front, rest, slots, length, _⟩ := packed.packed
  have here : map.slots[pos]? = some (.key front[pos]) := by
    rw [slots, List.getElem?_append_left (by simpa using length ▸ inside)]
    simp [length, inside]
  exact ⟨front[pos], MpMap.slot_eq_key.mp here⟩

theorem Packed.before_used (here : map.slots[pos]? = some (.key key)) : pos < map.used := by
  obtain ⟨front, rest, slots, length, unused⟩ := packed.packed
  by_contra beyond
  rw [slots, List.getElem?_append_right (by simpa [length] using beyond)] at here
  exact unused key (mem_of_getElem? here)

theorem Packed.setValue (pos : Nat) (value : Option V) :
    Packed keys (map.setValue pos value) := by
  refine ⟨packed.ordered, ?_, ?_⟩
  · rw [MpMap.slots_setValue]
    exact packed.packed
  · rw [FlagTells, MpMap.slots_setValue]
    exact packed.flag

theorem Packed.orderedRemove (inside : pos < map.used) (value : Option V) :
    Packed keys (map.orderedRemove pos value) := by
  obtain ⟨front, rest, slots, length, unused⟩ := packed.packed
  have removed : (map.orderedRemove pos value).slots =
      (front.eraseIdx pos).map Slot.key ++ (.null :: rest) := by
    have table : (map.orderedRemove pos value).slots =
        map.slots.take pos ++ (map.slots.take map.used).drop (pos + 1) ++
          .null :: map.slots.drop map.used := by
      simp [MpMap.slots, MpMap.orderedRemove, map_take, map_drop]
    have mapped : (front.map Slot.key).length = map.used := by rw [length_map, length]
    rw [table, slots, take_append_of_le_length (by omega), take_left' mapped,
      drop_left' mapped, eraseIdx_eq_take_drop_succ, map_append, map_take,
      map_drop]
  refine ⟨packed.ordered, ⟨_, _, removed, ?_, ?_⟩, ?_⟩
  · rw [length_eraseIdx_of_lt (by omega), length]
    rfl
  · simpa using unused
  · intro isSet key member
    refine packed.flag isSet key ?_
    rw [removed, mem_append] at member
    rw [slots, mem_append]
    rcases member with there | there
    · obtain ⟨other, kept, same⟩ := List.mem_map.mp there
      exact .inl (same ▸ List.mem_map_of_mem (mem_of_mem_eraseIdx kept))
    · exact absurd there (by simpa using unused key)

theorem Packed.orderedAppend {index : K} (ran : map.orderedAppend keys index = some (after, answer)) :
    Packed keys after ∧ after.used = map.used + 1 := by
  obtain ⟨front, rest, slots, length, unused⟩ := packed.packed
  rw [MpMap.orderedAppend] at ran
  cases here : map.table[map.used]? with
  | none => simp [here] at ran
  | some elem =>
    simp only [here, bind_eq_bind, bind_some, some.injEq, Prod.mk.injEq] at ran
    obtain ⟨rfl, rfl⟩ := ran
    obtain ⟨inside, _⟩ := List.getElem?_eq_some_iff.mp here
    have written : ({ map with
        allKeysAreQstrs := map.allKeysAreQstrs && keys.isQstr index
        used := map.used + 1
        table := map.table.set map.used { elem with key := .key index } } : MpMap K V).slots =
        map.slots.set map.used (.key index) := by
      simp [MpMap.slots, map_set]
    refine ⟨⟨packed.ordered, ⟨front ++ [index], rest.tail, ?_, by simp [length], ?_⟩,
      packed.flag.set rfl written⟩, rfl⟩
    · rw [written, slots]
      cases rest with
      | nil =>
        have short := congrArg List.length slots
        simp only [MpMap.slots, length_map, append_nil, length] at short
        omega
      | cons slot others =>
        rw [set_append_right _ _ (by simp [length])]
        simp [length]
    · exact fun key member => unused key (mem_of_mem_tail member)

theorem Packed.renew (alloc more : Nat) :
    Packed keys { map with
      alloc := alloc
      table := map.table.take map.used ++ List.replicate more ⟨.null, none⟩ } := by
  obtain ⟨front, rest, slots, length, unused⟩ := packed.packed
  have renewed : ({ map with
      alloc := alloc
      table := map.table.take map.used ++ List.replicate more ⟨.null, none⟩ } : MpMap K V).slots =
      front.map Slot.key ++ List.replicate more .null := by
    have mapped : (front.map Slot.key).length = map.used := by rw [length_map, length]
    have kept : map.slots.take map.used = front.map Slot.key := by rw [slots, take_left' mapped]
    rw [← kept]
    simp [MpMap.slots, map_take]
  refine ⟨packed.ordered, ⟨front, _, renewed, length, by simp⟩, ?_⟩
  intro isSet key member
  refine packed.flag isSet key ?_
  rw [renewed] at member
  rw [slots, mem_append]
  exact .inl (by simpa using member)

end

variable [DecidableEq K] {index : K} {onlyPtrs : Bool}

/-- The search of the ordered array ends, at the first key that passes the test. -/
theorem Packed.orderedFind_cases (packed : Packed keys map) (onlyPtrs : Bool) (index : K)
    {left pos : Nat} (whole : pos + left = map.used) :
    (∃ at_ key value, map.table[at_]? = some ⟨.key key, value⟩ ∧
        slotTest keys onlyPtrs index key = true ∧
        MpMap.orderedFind keys onlyPtrs index map.table left pos = some (.slot at_)) ∨
      ((∀ at_ key, pos ≤ at_ → map.slots[at_]? = some (.key key) →
          slotTest keys onlyPtrs index key = false) ∧
        MpMap.orderedFind keys onlyPtrs index map.table left pos = some .null) := by
  induction left generalizing pos with
  | zero =>
    refine .inr ⟨fun at_ key beyond here => ?_, rfl⟩
    have inside := packed.before_used here
    omega
  | succ left ih =>
    obtain ⟨key, value, here⟩ := packed.filled (show pos < map.used by omega)
    have test : (key = index ∨ (onlyPtrs = false ∧ keys.equal key index = true)) ↔
        slotTest keys onlyPtrs index key = true := by
      simp [slotTest]
    simp only [MpMap.orderedFind, here, bind_eq_bind, bind_some, test]
    by_cases tested : slotTest keys onlyPtrs index key = true
    · exact .inl ⟨pos, key, value, here, tested, if_pos tested⟩
    · rw [if_neg tested]
      rcases ih (show pos + 1 + left = map.used by omega) with found | ⟨others, ran⟩
      · exact .inl found
      · refine .inr ⟨fun at_ other beyond there => ?_, ran⟩
        rcases Nat.eq_or_lt_of_le beyond with rfl | further
        · have atPos : map.slots[pos]? = some (.key key) := MpMap.slot_eq_key.mpr ⟨value, here⟩
          rw [atPos] at there
          cases there
          exact Bool.eq_false_iff.mpr tested
        · exact others at_ other further there

/-- What a lookup in the ordered array does, for every kind. -/
theorem Packed.lookupOrdered_cases (packed : Packed keys map) (heap : Nat → Bool) (onlyPtrs : Bool)
    (index : K) (kind : MpMapLookupKind) :
    (∃ at_ key value, map.table[at_]? = some ⟨.key key, value⟩ ∧
        slotTest keys onlyPtrs index key = true ∧
        map.mpMapLookupOrdered keys heap onlyPtrs index kind =
          if kind = .removeIfFound then
            some (map.orderedRemove at_ value, .slot (map.used - 1))
          else some (map, .slot at_)) ∨
      ((∀ key, .key key ∈ map.slots → slotTest keys onlyPtrs index key = false) ∧
        (kind ≠ .addIfNotFound → map.mpMapLookupOrdered keys heap onlyPtrs index kind =
          some (map, .null)) ∧
        (kind = .addIfNotFound → ∀ after answer,
          map.mpMapLookupOrdered keys heap onlyPtrs index kind = some (after, answer) →
            Packed keys after ∧ (answer = .raised ∨ after.used = map.used + 1))) := by
  rcases packed.orderedFind_cases onlyPtrs index (Nat.zero_add map.used) with
    ⟨at_, key, value, here, tested, ran⟩ | ⟨others, ran⟩
  · exact .inl ⟨at_, key, value, here, tested, by simp [MpMap.mpMapLookupOrdered, ran, here]⟩
  · refine .inr ⟨fun key member => ?_, fun notAdd => ?_, fun isAdd after answer added => ?_⟩
    · obtain ⟨at_, here⟩ := mem_iff_getElem?.mp member
      exact others at_ key (Nat.zero_le at_) here
    · simp [MpMap.mpMapLookupOrdered, ran, notAdd]
    · simp only [MpMap.mpMapLookupOrdered, ran, isAdd, bind_eq_bind, bind_some, ne_eq,
        not_true_eq_false, if_false] at added
      split at added
      · split at added
        · obtain ⟨packedAfter, used⟩ :=
            (packed.renew (map.alloc + 4) (map.alloc + 4 - map.used)).orderedAppend added
          exact ⟨packedAfter, .inr used⟩
        · cases added
          exact ⟨⟨packed.ordered, packed.packed, packed.flag⟩, .inl rfl⟩
      · obtain ⟨packedAfter, used⟩ := packed.orderedAppend added
        exact ⟨packedAfter, .inr used⟩

theorem Packed.searched (packed : Packed keys map) (laws : keys.QstrLaws)
    (isSet : map.allKeysAreQstrs = true) (heap : Nat → Bool) (index : K) (kind : MpMapLookupKind) :
    Searched keys heap map index kind := by
  have qstrs := packed.flag isSet
  by_cases early : keys.isQstr index = false ∧ keys.isStr index = false ∧ kind ≠ .addIfNotFound
  · refine .absent (fun key member => laws.stringsOnly (qstrs key member) early.1 early.2.1)
      (fun _ => ?_) fun isAdd => absurd isAdd early.2.2
    rw [MpMap.mpMapLookup, MpMap.mpMapLookupNested, if_pos ⟨isSet, early⟩]
  have unfolded : map.mpMapLookup keys heap index kind =
      map.mpMapLookupOrdered keys heap (keys.isQstr index || !keys.isStr index) index kind := by
    rw [MpMap.mpMapLookup, MpMap.mpMapLookupNested, if_neg fun returns => early returns.2]
    simp [packed.ordered, isSet]
  rcases packed.lookupOrdered_cases heap (keys.isQstr index || !keys.isStr index) index kind with
    ⟨at_, key, value, here, tested, ran⟩ | ⟨others, null, added⟩
  · have member : .key key ∈ map.slots :=
      MpMap.mem_slots.mpr ⟨value, MpMap.mem_entries.mpr ⟨at_, here⟩⟩
    have same : keys.equal key index = true := laws.slotTest_eq (qstrs key member) index ▸ tested
    rw [← unfolded] at ran
    by_cases remove : kind = .removeIfFound
    · rw [if_pos remove] at ran
      exact .found here same ran fun notRemove => absurd remove notRemove
    · rw [if_neg remove] at ran
      exact .found here same ran fun _ => ⟨rfl, rfl⟩
  · refine .absent (fun key member => ?_) (fun notAdd => unfolded.trans (null notAdd))
      fun isAdd after pos ran same => ?_
    · rw [← laws.slotTest_eq (qstrs key member) index]
      exact others key member
    · rw [unfolded] at ran
      rcases (added isAdd after _ ran).2 with raised | used
      · cases raised
      · rw [same] at used
        omega

end Ordered

/-! ## Every run -/

/-- A call that finds an entry: it gives a slot, and has not added the key. -/
def MpMap.Finds [DecidableEq K] (keys : MpKeys K) (hashable : K → Bool) (heap : Nat → Bool)
    (map : MpMap K V) (index : K) (kind : MpMapLookupKind) : Prop :=
  ∃ after pos, map.mpMapLookupHashing keys hashable heap index kind = some (after, .slot pos) ∧
    (kind = .addIfNotFound → after = map)

/-- A scan over the entries that compares each of them with the index. -/
def MpMap.scanEqual (keys : MpKeys K) (map : MpMap K V) (index : K) : Bool :=
  map.entries.any fun entry => keys.equal entry.1 index

/-- The flag of the map means what it says, and as long as it is set every lookup finds an
entry if and only if a scan does. A lookup ends then, and gives the slot of an equal key. -/
structure FastPathAgrees [DecidableEq K] (keys : MpKeys K) (hashable : K → Bool)
    (map : MpMap K V) : Prop where
  flag : (∃ entry ∈ map.entries, keys.isQstr entry.1 = false) → map.allKeysAreQstrs = false
  finds : map.allKeysAreQstrs = true → ∀ heap index kind,
    map.Finds keys hashable heap index kind ↔ map.scanEqual keys index = true
  lookup : map.allKeysAreQstrs = true → ∀ heap index, ∃ answer,
    map.mpMapLookupHashing keys hashable heap index .lookup = some (map, answer) ∧
      match answer with
      | .null => map.scanEqual keys index = false
      | .slot pos => ∃ key value, map.table[pos]? = some ⟨.key key, value⟩ ∧
          keys.equal key index = true
      | .raised => False

section Runs

variable [DecidableEq K] {map : MpMap K V} {hashable : K → Bool} {index : K}

omit [DecidableEq K] in
theorem MpMap.scanEqual_iff :
    map.scanEqual keys index = true ↔ ∃ key, .key key ∈ map.slots ∧ keys.equal key index = true := by
  rw [scanEqual, List.any_eq_true]
  constructor
  · rintro ⟨entry, member, same⟩
    exact ⟨entry.1, mem_slots.mpr ⟨entry.2, member⟩, same⟩
  · rintro ⟨key, member, same⟩
    obtain ⟨value, member⟩ := mem_slots.mp member
    exact ⟨(key, value), member, same⟩

/-- The invariant: one of the two, and which one does not change. -/
def Kept (keys : MpKeys K) (map : MpMap K V) : Prop := Walkable keys map ∨ Packed keys map

omit [DecidableEq K] in
theorem Kept.flag (kept : Kept keys map) : FlagTells keys map :=
  kept.elim Walkable.flag Packed.flag

theorem Kept.searched (kept : Kept keys map) (laws : keys.QstrLaws)
    (isSet : map.allKeysAreQstrs = true) (heap : Nat → Bool) (index : K) (kind : MpMapLookupKind) :
    Searched keys heap map index kind := by
  rcases kept with walkable | packed
  · exact walkable.searched heap laws isSet index kind
  · exact packed.searched laws isSet heap index kind

/-- While the flag is set, only adding an index without a hash raises an exception for it. -/
theorem Kept.hashing_cases (kept : Kept keys map) (strings : ∀ key,
      (keys.isQstr key = true ∨ keys.isStr key = true) → hashable key = true)
    (isSet : map.allKeysAreQstrs = true) (heap : Nat → Bool) (index : K) (kind : MpMapLookupKind) :
    map.mpMapLookupHashing keys hashable heap index kind = map.mpMapLookup keys heap index kind ∨
      (kind = .addIfNotFound ∧ keys.isQstr index = false ∧ keys.isStr index = false ∧
        ∃ after, map.mpMapLookupHashing keys hashable heap index kind = some (after, .raised)) := by
  unfold MpMap.mpMapLookupHashing
  by_cases direct : hashable index = true ∨ map.isOrdered = true ∨
      (map.allKeysAreQstrs = true ∧ keys.isQstr index = false ∧ keys.isStr index = false ∧
        kind ≠ .addIfNotFound) ∨ (map.alloc = 0 ∧ kind ≠ .addIfNotFound)
  · exact .inl (if_pos direct)
  simp only [if_neg direct]
  obtain ⟨noHash, notOrdered, notEarly, _⟩ := by simpa only [not_or] using direct
  have walkable : Walkable keys map := kept.resolve_right fun packed => notOrdered packed.ordered
  have notQstr : keys.isQstr index = false := by
    rw [← Bool.not_eq_true]
    exact fun isQstr => noHash (strings index (.inl isQstr))
  have notStr : keys.isStr index = false := by
    rw [← Bool.not_eq_true]
    exact fun isStr => noHash (strings index (.inr isStr))
  have isAdd : kind = .addIfNotFound := by
    by_contra notAdd
    exact notEarly ⟨isSet, notQstr, notStr, notAdd⟩
  refine .inr ⟨isAdd, notQstr, notStr, ?_⟩
  split
  · rcases walkable.rehash heap 0 with ran | ⟨after, ran, _⟩
    · exact ⟨map, by simp [ran]⟩
    · exact ⟨after, by simp [ran]⟩
  · exact ⟨map, rfl⟩

/-- As long as the flag is set, the map is searched as if all entries were compared. -/
theorem Kept.agrees (kept : Kept keys map) (laws : keys.QstrLaws) (strings : ∀ key,
      (keys.isQstr key = true ∨ keys.isStr key = true) → hashable key = true) :
    FastPathAgrees keys hashable map where
  flag := by
    rintro ⟨entry, member, notQstr⟩
    rw [← Bool.not_eq_true]
    intro isSet
    rw [kept.flag isSet entry.1 (MpMap.mem_slots.mpr ⟨entry.2, member⟩)] at notQstr
    cases notQstr
  finds := by
    intro isSet heap index kind
    rw [MpMap.Finds]
    rcases kept.hashing_cases strings isSet heap index kind with
      direct | ⟨isAdd, notQstr, notStr, after, raised⟩
    · rw [direct, MpMap.scanEqual_iff]
      rcases kept.searched laws isSet heap index kind with
        @⟨key, value, at_, after, pos, here, same, ran, unchanged⟩ | ⟨unequal, null, new⟩
      · have member : .key key ∈ map.slots :=
          MpMap.mem_slots.mpr ⟨value, MpMap.mem_entries.mpr ⟨at_, here⟩⟩
        refine iff_of_true ⟨after, pos, ran, fun isAdd => ?_⟩ ⟨key, member, same⟩
        exact (unchanged (by simp [isAdd])).1
      · refine iff_of_false ?_ ?_
        · rintro ⟨after, pos, ran, unchanged⟩
          by_cases isAdd : kind = .addIfNotFound
          · exact new isAdd after pos ran (unchanged isAdd)
          · rw [null isAdd] at ran
            cases ran
        · rintro ⟨key, member, same⟩
          rw [unequal key member] at same
          cases same
    · rw [raised, MpMap.scanEqual_iff]
      refine iff_of_false (by simp) ?_
      rintro ⟨key, member, same⟩
      rw [laws.stringsOnly (kept.flag isSet key member) notQstr notStr] at same
      cases same
  lookup := by
    intro isSet heap index
    rcases kept.hashing_cases strings isSet heap index .lookup with direct | ⟨isAdd, _⟩
    · rw [direct]
      rcases kept.searched laws isSet heap index .lookup with
        @⟨key, value, at_, after, pos, here, same, ran, unchanged⟩ | ⟨unequal, null, new⟩
      · obtain ⟨rfl, rfl⟩ := unchanged (by simp)
        exact ⟨_, ran, key, value, here, same⟩
      · refine ⟨_, null (by simp), ?_⟩
        rw [← Bool.not_eq_true, MpMap.scanEqual_iff]
        rintro ⟨key, member, same⟩
        rw [unequal key member] at same
        cases same
    · cases isAdd

omit [DecidableEq K] in
theorem Kept.setValue (kept : Kept keys map) (pos : Nat) (value : Option V) :
    Kept keys (map.setValue pos value) :=
  kept.imp (fun walkable => walkable.setValue value) fun packed => packed.setValue pos value

variable {answer : MpMapAnswer} {heap : Nat → Bool} {kind : MpMapLookupKind}

/-- Every call of `mp_map_lookup` keeps the invariant, whether the flag is set or not. -/
theorem Kept.mpMapLookup (kept : Kept keys map)
    (ran : map.mpMapLookup keys heap index kind = some (after, answer)) : Kept keys after := by
  rcases kept with walkable | packed
  · by_cases isAdd : kind = .addIfNotFound
    · rw [isAdd] at ran
      rcases walkable.add_cases heap index with raised | ⟨added, pos, slot, walkableAfter⟩
      · rw [raised] at ran
        cases ran
        exact .inl walkable
      · rw [slot] at ran
        cases ran
        exact .inl walkableAfter
    · rw [MpMap.mpMapLookup, MpMap.mpMapLookupNested] at ran
      simp only [walkable.unordered, Bool.false_eq_true, if_false, isAdd] at ran
      split at ran
      · cases ran
        exact .inl walkable
      · split at ran
        · cases ran
          exact .inl walkable
        · rename_i _ some_
          rcases walkable.lookupHash_cases heap some_ _ _ index kind 1 with
            ⟨pos, key, value, _, _, walked⟩ | ⟨_, walked⟩ | ⟨add, _⟩ | ⟨add, _⟩
          · rw [walked] at ran
            split at ran
            · cases ran
              exact .inl walkable.hashRemove
            · cases ran
              exact .inl walkable
          · rw [walked] at ran
            cases ran
            exact .inl walkable
          · exact absurd add isAdd
          · exact absurd add isAdd
  · rw [MpMap.mpMapLookup, MpMap.mpMapLookupNested] at ran
    simp only [packed.ordered, if_true] at ran
    split at ran
    · cases ran
      exact .inr packed
    · rcases packed.lookupOrdered_cases heap
          (map.allKeysAreQstrs && (keys.isQstr index || !keys.isStr index)) index kind with
        ⟨at_, key, value, here, _, searched⟩ | ⟨_, null, added⟩
      · rw [searched] at ran
        split at ran
        · cases ran
          exact .inr (packed.orderedRemove
            (packed.before_used (MpMap.slot_eq_key.mpr ⟨value, here⟩)) value)
        · cases ran
          exact .inr packed
      · by_cases isAdd : kind = .addIfNotFound
        · exact .inr (added isAdd after answer ran).1
        · rw [null isAdd] at ran
          cases ran
          exact .inr packed

theorem Kept.mpMapLookupHashing (kept : Kept keys map)
    (ran : map.mpMapLookupHashing keys hashable heap index kind = some (after, answer)) :
    Kept keys after := by
  simp only [MpMap.mpMapLookupHashing] at ran
  split at ran
  · exact kept.mpMapLookup ran
  · rename_i direct
    have notOrdered : map.isOrdered ≠ true := fun ordered => direct (.inr (.inl ordered))
    have walkable : Walkable keys map := kept.resolve_right fun packed => notOrdered packed.ordered
    split at ran
    · rcases walkable.rehash heap 0 with rehashed | ⟨larger, rehashed, walkableLarger, _⟩
      · simp only [rehashed, bind_eq_bind, bind_some, some.injEq,
          Prod.mk.injEq] at ran
        exact .inl (ran.1 ▸ walkable)
      · simp only [rehashed, bind_eq_bind, bind_some, some.injEq,
          Prod.mk.injEq] at ran
        exact .inl (ran.1 ▸ walkableLarger)
    · cases ran
      exact kept

end Runs

/-- One call and what the caller writes, with an index that may have no hash. -/
def MpMap.callHashing [DecidableEq K] (keys : MpKeys K) (hashable : K → Bool) (map : MpMap K V) :
    MapCall K V → Option (MpMap K V × MpMapAnswer)
  | .lookup heap index => map.mpMapLookupHashing keys hashable heap index .lookup
  | .add heap index write => do
      match ← map.mpMapLookupHashing keys hashable heap index .addIfNotFound, write with
      | (map, .slot pos), some value => some (map.setValue pos (some value), .slot pos)
      | result, _ => some result
  | .remove heap index => map.mpMapLookupHashing keys hashable heap index .removeIfFound

theorem Kept.callHashing [DecidableEq K] {map after : MpMap K V} {hashable : K → Bool}
    (kept : Kept keys map) {made : MapCall K V}
    (ran : map.callHashing keys hashable made = some (after, answer)) : Kept keys after := by
  cases made with
  | lookup heap index => exact kept.mpMapLookupHashing ran
  | remove heap index => exact kept.mpMapLookupHashing ran
  | add heap index write =>
    cases called : map.mpMapLookupHashing keys hashable heap index .addIfNotFound with
    | none => simp [MpMap.callHashing, called] at ran
    | some result =>
      obtain ⟨next, given⟩ := result
      have keptNext := kept.mpMapLookupHashing called
      simp only [MpMap.callHashing, called, bind_eq_bind, bind_some] at ran
      split at ran
      · rename_i same
        cases same
        cases ran
        exact keptNext.setValue _ _
      · cases ran
        exact keptNext

/-- `mp_map_init`, and what the caller makes of it: a hash table or an ordered array. -/
def MpMap.start (n : Nat) (ordered : Bool) : MpMap K V := { mpMapInit n with isOrdered := ordered }

theorem Kept.start (n : Nat) (ordered : Bool) : Kept keys (MpMap.start n ordered : MpMap K V) := by
  cases ordered with
  | false => exact .inl (.init n)
  | true =>
    refine .inr ⟨rfl, ⟨[], List.replicate n .null, ?_, rfl, by simp⟩, ?_⟩
    · simp [MpMap.slots, MpMap.start, MpMap.mpMapInit]
    · intro _ key member
      simp [MpMap.slots, MpMap.start, MpMap.mpMapInit] at member

/-- The map after a call with an object as index. -/
def MpMap.nextObj (world : ObjWorld config) (map : MpMap (MpObj config) V)
    (made : MapCall (MpObj config) V) : Option (MpMap (MpObj config) V) :=
  (map.callHashing (objKeys world) (fun o => (mpObjHash world o).isSome) made).map Prod.fst

/-- In every run of lookups, insertions and removals on a new map, with objects of any kind as
keys, comparing pointers only gives what comparing all entries gives. -/
theorem mpMapLookup_fastPath (world : ObjWorld config) (n : Nat) (ordered : Bool)
    {run : List (MapCall (MpObj config) V × MpMap (MpObj config) V)}
    (runs : Run (fun map made after => MpMap.nextObj world map made = some after)
      (MpMap.start n ordered) run) :
    ∀ map ∈ visited (MpMap.start n ordered) run,
      FastPathAgrees (objKeys world) (fun o => (mpObjHash world o).isSome) map := by
  intro map member
  have kept : Kept (objKeys world) map := by
    refine runs.invariant (Kept (objKeys world)) (.start n ordered) ?_ map member
    intro state event next kept stepped
    obtain ⟨⟨after, answer⟩, ran, rfl⟩ := map_eq_some_iff.mp stepped
    exact kept.callHashing ran
  refine kept.agrees (objKeys_qstrLaws world) fun key isString => ?_
  cases key with
  | qstr q => rfl
  | str string => rfl
  | smallInt value => rfl
  | other address => simp [objKeys, mpObjIsQstr, mpObjIsTypeStr] at isString

/-- A world in which the interned strings are one letter long, and nothing else is equal to
anything or has a hash. -/
def letterWorld : ObjWorld ⟨2, 1, 128, 32, false⟩ where
  qstrData q := [UInt8.ofNat q]
  constNone := 0
  isFloat _ := false
  binaryOpEqual _ _ := none
  hash _ := none

/-- An interned string is removed by a string that is not interned; the other key, a small
integer, clears the flag until the table is built again without it. -/
theorem mpMapLookup_fastPath_string :
    ∃ run : List (MapCall (MpObj ⟨2, 1, 128, 32, false⟩) Nat × MpMap (MpObj ⟨2, 1, 128, 32, false⟩) Nat),
      (run.map fun taken => (taken.2.allKeysAreQstrs, taken.2.used, taken.2.alloc)) =
        [(true, 1, 2), (true, 0, 2), (false, 1, 2), (false, 0, 2), (false, 1, 2), (false, 2, 2),
          (true, 3, 4)] ∧
      ∀ map ∈ visited (MpMap.start 0 false) run,
        FastPathAgrees (objKeys letterWorld) (fun o => (mpObjHash letterWorld o).isSome) map := by
  let roomy : Nat → Bool := fun _ => true
  let notInterned : MpObj ⟨2, 1, 128, 32, false⟩ := .str ⟨7, 0, [97], Or.inl rfl⟩
  let calls : List (MapCall (MpObj ⟨2, 1, 128, 32, false⟩) Nat) :=
    [.add roomy (.qstr 97) (some 1), .remove roomy notInterned, .add roomy (.smallInt 5) (some 2),
      .remove roomy (.smallInt 5), .add roomy (.qstr 97) (some 3), .add roomy (.qstr 98) (some 4),
      .add roomy (.qstr 99) (some 5)]
  refine ⟨trace (MpMap.nextObj letterWorld) (MpMap.start 0 false) calls, by decide, ?_⟩
  exact mpMapLookup_fastPath letterWorld 0 false
    (Run.of_trace (fun _ _ => True) (fun _ happens => happens) calls fun _ _ => trivial)

end MultiPython.Map
