import MultiPython.Vm.Attr

/-!
# Lookup caches in bytecode

`LOAD_NAME`, `LOAD_GLOBAL`, `LOAD_ATTR` and `STORE_ATTR` of `py/vm.c`, without and with
`MICROPY_OPT_CACHE_MAP_LOOKUP_IN_BYTECODE`. A cache byte is an index into whatever table the
operation looks at now. Since a key is in at most one slot of a hash table, an entry that the byte
points at and that has the right key is the one that a lookup finds. What a hit skips is the rest of
the attribute protocol.
-/

namespace MultiPython.Map

open Logic List

variable {K V : Type} {keys : MpKeys K} {map : MpMap K V}

theorem Hashed.pos_unique (hashed : Hashed keys map) (lawful : keys.Lawful) {pos other : Nat}
    {key otherKey : K} {value otherValue : Option V}
    (here : map.table[pos]? = some ⟨.key key, value⟩)
    (there : map.table[other]? = some ⟨.key otherKey, otherValue⟩)
    (same : keys.equal key otherKey = true) : pos = other := by
  have apart := pairwise_filterMap.mp hashed.apart
  rw [pairwise_iff_getElem] at apart
  obtain ⟨inside, isHere⟩ := List.getElem?_eq_some_iff.mp here
  obtain ⟨insideOther, isThere⟩ := List.getElem?_eq_some_iff.mp there
  have hereEntry : MpMap.slotEntry map.table[pos] = some (key, value) := by
    rw [isHere]
    rfl
  have thereEntry : MpMap.slotEntry map.table[other] = some (otherKey, otherValue) := by
    rw [isThere]
    rfl
  rcases Nat.lt_trichotomy pos other with before | equal | after
  · have differ : keys.equal key otherKey = false :=
      apart pos other inside insideOther before _ hereEntry _ thereEntry
    rw [same] at differ
    cases differ
  · exact equal
  · have differ : keys.equal otherKey key = false :=
      apart other pos insideOther inside after _ thereEntry _ hereEntry
    rw [lawful.equal_comm, same] at differ
    cases differ

section

variable [DecidableEq K] (hashed : Hashed keys map) (lawful : keys.Lawful) {heap : Nat → Bool}

include hashed lawful heap

theorem Hashed.lookup_of_here {pos : Nat} {key : K} {value : Option V}
    (here : map.table[pos]? = some ⟨.key key, value⟩) :
    map.mpMapLookup keys heap key .lookup = some (map, .slot pos) := by
  rcases hashed.lookup_cases heap lawful key (by simp : MpMapLookupKind.lookup ≠ .addIfNotFound) with
    ⟨absent, -⟩ | ⟨found, foundKey, foundValue, isFound, same, ran⟩
  · have different := absent (key, value) (MpMap.mem_entries.mpr ⟨pos, here⟩)
    rw [lawful.refl] at different
    cases different
  · rw [ran, if_neg (by simp), hashed.pos_unique lawful isFound here same]

theorem Hashed.added {index : K} {after : MpMap K V} {pos : Nat}
    (ran : map.mpMapLookup keys heap index .addIfNotFound = some (after, .slot pos)) :
    Hashed keys after ∧ ∀ other key value, after.table[other]? = some ⟨.key key, value⟩ →
      other = pos ∨ (key, value) ∈ map.entries := by
  rcases hashed.add_cases heap lawful index with
    ⟨found, key, old, -, -, same⟩ | ⟨-, added, place, isAdded, same⟩ | ⟨-, -, same⟩
  · rw [ran] at same
    cases same
    exact ⟨hashed, fun other key value here => .inr (MpMap.mem_entries.mpr ⟨other, here⟩)⟩
  · rw [ran] at same
    cases same
    refine ⟨isAdded.hashed, fun other key value here => ?_⟩
    rcases mem_cons.mp (isAdded.entries.mem_iff.mp
        ((@MpMap.mem_entries _ _ (key, value) _).mpr ⟨other, here⟩)) with isNew | old
    · cases isNew
      exact .inl (isAdded.hashed.pos_unique lawful here isAdded.here (lawful.refl _))
    · exact .inr old
  · rw [ran] at same
    cases same

theorem Hashed.removed {index : K} {after : MpMap K V} {answer : MpMapAnswer}
    (ran : map.mpMapLookup keys heap index .removeIfFound = some (after, answer)) :
    Hashed keys after ∧ ∀ entry ∈ after.entries, entry ∈ map.entries := by
  rcases hashed.lookup_cases heap lawful index
      (by simp : MpMapLookupKind.removeIfFound ≠ .addIfNotFound) with
    ⟨-, same⟩ | ⟨pos, key, old, here, -, same⟩
  · rw [ran] at same
    cases same
    exact ⟨hashed, fun entry member => member⟩
  · rw [ran, if_pos rfl] at same
    cases same
    obtain ⟨isHashed, -, split⟩ := hashed.hashRemove lawful here
    exact ⟨isHashed, fun entry member => split.mem_iff.mpr (mem_cons_of_mem _ member)⟩

end

theorem MpMap.setValue_slot {pos other : Nat} {key : K} {value : V} {old : Option V}
    (here : (map.setValue pos (some value)).table[other]? = some ⟨.key key, old⟩) :
    old.isSome = true ∨ other ≠ pos ∧ map.table[other]? = some ⟨.key key, old⟩ := by
  simp only [MpMap.setValue, List.getElem?_modify, Option.map_eq_map, Option.map_eq_some_iff] at here
  obtain ⟨elem, before, isElem⟩ := here
  by_cases isPos : pos = other
  · rw [if_pos isPos] at isElem
    have isValue : some value = old := congrArg MpMapElem.value isElem
    exact .inl (by rw [← isValue]; rfl)
  · rw [if_neg isPos] at isElem
    rw [isElem] at before
    exact .inr ⟨Ne.symm isPos, before⟩

end MultiPython.Map

namespace MultiPython.Vm

open Logic Map

section Operations

variable {Obj Rest : Type} [DecidableEq Obj] {config : VmConfig} {objKeys : ObjKeys Obj}

section Stores

variable (builtins : Builtins objKeys Rest)

/-- The world with another map of members. -/
def World.setMembers (world : World objKeys Rest) (selfIn : Obj) (map : HashMap objKeys.keys) :
    World objKeys Rest :=
  { world with members := Function.update world.members selfIn map }

/-- Writing the value of an element of a map. -/
def HashMap.write (map : HashMap objKeys.keys) (pos : Nat) (value : Obj) : HashMap objKeys.keys :=
  ⟨map.1.setValue pos (some value), map.2.1.setValue_any objKeys.lawful pos (some value), by
    intro entry member
    obtain ⟨other, here⟩ := MpMap.mem_entries.mp member
    rcases MpMap.setValue_slot here with isSome | ⟨-, before⟩
    · exact isSome
    · exact map.2.2 entry (MpMap.mem_entries.mpr ⟨other, before⟩)⟩

/-- Writing the value of the slot that an addition has found. -/
def HashMap.stored (map : HashMap objKeys.keys) {heap : Nat → Bool} {index : Obj}
    {after : MpMap Obj Obj} {pos : Nat}
    (ran : map.1.mpMapLookup objKeys.keys heap index .addIfNotFound = some (after, .slot pos))
    (value : Obj) : HashMap objKeys.keys :=
  ⟨after.setValue pos (some value),
    (map.2.1.added objKeys.lawful ran).1.setValue_any objKeys.lawful pos (some value), by
    intro entry member
    obtain ⟨other, here⟩ := MpMap.mem_entries.mp member
    rcases MpMap.setValue_slot here with isSome | ⟨elsewhere, before⟩
    · exact isSome
    · rcases (map.2.1.added objKeys.lawful ran).2 other entry.1 entry.2 before with same | old
      · exact absurd same elsewhere
      · exact map.2.2 entry old⟩

/-- What a removal leaves. -/
def HashMap.removed (map : HashMap objKeys.keys) {heap : Nat → Bool} {index : Obj}
    {after : MpMap Obj Obj} {answer : MpMapAnswer}
    (ran : map.1.mpMapLookup objKeys.keys heap index .removeIfFound = some (after, answer)) :
    HashMap objKeys.keys :=
  ⟨after, (map.2.1.removed objKeys.lawful ran).1, fun entry member =>
    map.2.2 entry ((map.2.1.removed objKeys.lawful ran).2 entry member)⟩

/-- Write the value of an element of the members. -/
def writeMember (selfIn : Obj) (pos : Nat) (value : Obj) (world : World objKeys Rest) :
    World objKeys Rest :=
  world.setMembers selfIn ((world.members selfIn).write pos value)

/-- The part of `mp_obj_instance_store_attr` after `skip_special_accessors`. -/
def storeMember (selfIn : Obj) (attr : Qstr) : Option Obj → VmProgram objKeys Rest Bool
  | some value => fun world =>
    match ran : (world.members selfIn).1.mpMapLookup objKeys.keys world.heap (objKeys.newQstr attr)
        .addIfNotFound with
    | some (_, .slot _) =>
      .done true (world.setMembers selfIn ((world.members selfIn).stored ran value))
    | some (_, .raised) => .failed .memoryError world
    | _ => .stuck
  | none => fun world =>
    match ran : (world.members selfIn).1.mpMapLookup objKeys.keys world.heap (objKeys.newQstr attr)
        .removeIfFound with
    | some (_, .slot _) =>
      .done true (world.setMembers selfIn ((world.members selfIn).removed ran))
    | some (_, .null) => .done false world
    | _ => .stuck

variable (config) in
def mpObjInstanceStoreAttr (load : Obj → Qstr → VmProgram objKeys Rest (Dest Obj)) (depth : Nat)
    (selfIn : Obj) (attr : Qstr) (value : Option Obj) : VmProgram objKeys Rest Bool := do
  match ← storeSpecial config builtins load depth selfIn attr value with
  | some success => pure success
  | none => storeMember selfIn attr value

variable (config) in
def mpStoreAttr (depth : Nat) (base : Obj) (attr : Qstr) (value : Option Obj) :
    VmProgram objKeys Rest Unit := do
  let world ← Program.get
  let success ← match (world.types (world.typeOf base)).native with
    | none =>
      mpObjInstanceStoreAttr config builtins
        (mpLoadMethodMaybe config builtins depth) depth base attr value
    | some slots => if slots.attr then builtins.nativeStore base attr value else pure false
  if success then pure () else Program.raise (.noAttribute base attr)

end Stores

/-! ## The operations -/

/-- The operations that have a cache byte, with their operand and what they take from the stack. -/
inductive Opcode (Obj : Type) where
  | loadName (qst : Qstr)
  | loadGlobal (qst : Qstr)
  | loadAttr (top : Obj) (qst : Qstr)
  | storeAttr (top : Obj) (qst : Qstr) (value : Option Obj)

variable (config) in
/-- The operations without caches; the result is what they push. -/
def uncachedOpcode (builtins : Builtins objKeys Rest) (depth : Nat) :
    Opcode Obj → VmProgram objKeys Rest (Option Obj)
  | .loadName qst => mpLoadName qst
  | .loadGlobal qst => mpLoadGlobal qst
  | .loadAttr top qst => mpLoadAttr config builtins (depth + 1) top qst
  | .storeAttr top qst value => do
      mpStoreAttr config builtins depth top qst value
      pure none

/-- The element that the cache byte points at, or that a lookup finds, and the new cache byte. -/
def cachedElem (keys : MpKeys Obj) (map : MpMap Obj Obj) (key : Obj) (x : Nat) :
    Option (Nat × Option Nat) :=
  if x < map.alloc ∧ map.table[x]?.map MpMapElem.key = some (.key key) then some (x, some x)
  else
    match map.mpMapLookup keys (fun _ => false) key .lookup with
    | some (_, .slot pos) => some (pos % 256, some pos)
    | some (_, .null) => some (x, none)
    | _ => none

/-- The value of an element. -/
def elemValue (map : MpMap Obj Obj) (pos : Nat) : Option Obj := map.table[pos]?.bind MpMapElem.value

variable (config) in
/-- The operations with their cache byte. -/
def cachedOpcode (builtins : Builtins objKeys Rest) (depth : Nat) (op : Opcode Obj) (x : Nat)
    (world : World objKeys Rest) :
    Nat × Interaction (World objKeys Rest) (Call Obj) Obj (Exn Obj) (Option Obj) :=
  match op with
  | .loadName qst =>
    match cachedElem objKeys.keys (world.dicts world.locals).1 (objKeys.newQstr qst) x with
    | none => (x, .stuck)
    | some (x, some pos) => (x, .done (elemValue (world.dicts world.locals).1 pos) world)
    | some (x, none) => (x, mpLoadName qst world)
  | .loadGlobal qst =>
    match cachedElem objKeys.keys (world.dicts world.globals).1 (objKeys.newQstr qst) x with
    | none => (x, .stuck)
    | some (x, some pos) => (x, .done (elemValue (world.dicts world.globals).1 pos) world)
    | some (x, none) => (x, mpLoadGlobal qst world)
  | .loadAttr top qst =>
    if (world.types (world.typeOf top)).isInstanceType then
      match cachedElem objKeys.keys (world.members top).1 (objKeys.newQstr qst) x with
      | none => (x, .stuck)
      | some (x, some pos) => (x, .done (elemValue (world.members top).1 pos) world)
      | some (x, none) => (x, mpLoadAttr config builtins (depth + 1) top qst world)
    else (x, mpLoadAttr config builtins (depth + 1) top qst world)
  | .storeAttr top qst value =>
    let generic := uncachedOpcode config builtins depth (.storeAttr top qst value) world
    match (world.types (world.typeOf top)).isInstanceType, value with
    | true, some value =>
      match cachedElem objKeys.keys (world.members top).1 (objKeys.newQstr qst) x with
      | none => (x, .stuck)
      | some (x, some pos) => (x, .done none (writeMember top pos value world))
      | some (x, none) => (x, generic)
    | _, _ => (x, generic)

/-! ## Hits -/

/-- A member of an instance, if it has one of that name. -/
def memberOf (world : World objKeys Rest) (selfIn : Obj) (attr : Qstr) : Option (Option Obj) :=
  match (world.members selfIn).1.mpMapLookup objKeys.keys (fun _ => false) (objKeys.newQstr attr)
      .lookup with
  | some (_, .slot pos) => some (elemValue (world.members selfIn).1 pos)
  | _ => none

/-- With and without a cache byte, the same element is found. -/
theorem cachedElem_spec {map : MpMap Obj Obj} (hashed : Hashed objKeys.keys map) (key : Obj) (x : Nat) :
    (∃ pos found value y, map.table[pos]? = some ⟨.key found, value⟩ ∧
        objKeys.keys.equal found key = true ∧
        (∀ heap, map.mpMapLookup objKeys.keys heap key .lookup = some (map, .slot pos)) ∧
        cachedElem objKeys.keys map key x = some (y, some pos)) ∨
      (∀ heap, map.mpMapLookup objKeys.keys heap key .lookup = some (map, .null)) ∧
        cachedElem objKeys.keys map key x = some (x, none) := by
  unfold cachedElem
  split_ifs with hit
  · obtain ⟨elem, here, isKey⟩ := Option.map_eq_some_iff.mp hit.2
    obtain ⟨slot, value⟩ := elem
    obtain rfl : slot = .key key := isKey
    exact .inl ⟨x, key, value, x, here, objKeys.lawful.refl key,
      fun heap => hashed.lookup_of_here objKeys.lawful here, rfl⟩
  · rcases hashed.lookup_cases (fun _ => false) objKeys.lawful key
      (by simp : MpMapLookupKind.lookup ≠ .addIfNotFound) with
      ⟨absent, ran⟩ | ⟨pos, found, value, here, same, ran⟩
    · refine .inr ⟨fun heap => ?_, by rw [ran]⟩
      rcases hashed.lookup_cases heap objKeys.lawful key
        (by simp : MpMapLookupKind.lookup ≠ .addIfNotFound) with
        ⟨-, other⟩ | ⟨pos, found, value, here, same, -⟩
      · exact other
      · have different := absent (found, value) (MpMap.mem_entries.mpr ⟨pos, here⟩)
        rw [same] at different
        cases different
    · rw [if_neg (by simp)] at ran
      refine .inl ⟨pos, found, value, pos % 256, here, same, fun heap => ?_, by rw [ran]⟩
      rcases hashed.lookup_cases heap objKeys.lawful key
        (by simp : MpMapLookupKind.lookup ≠ .addIfNotFound) with
        ⟨absent, -⟩ | ⟨other, otherFound, otherValue, isThere, sameToo, other⟩
      · have different := absent (found, value) (MpMap.mem_entries.mpr ⟨pos, here⟩)
        rw [same] at different
        cases different
      · rw [other, if_neg (by simp), hashed.pos_unique objKeys.lawful isThere here
          (objKeys.lawful.trans sameToo (objKeys.lawful.symm same))]

variable (Rest) in
/-- What a lookup of a value returns where an element is, or is not. -/
theorem lookupValue_eq {map : MpMap Obj Obj} {key : Obj} {pos : Nat} {elem : MpMapElem Obj Obj}
    (ran : ∀ heap, map.mpMapLookup objKeys.keys heap key .lookup = some (map, .slot pos))
    (here : map.table[pos]? = some elem) :
    (lookupValue map key : VmProgram objKeys Rest _) = pure (some elem.value) := by
  rw [lookupValue, ran]
  simp [here]

section Transparency

variable {builtins : Builtins objKeys Rest} {depth : Nat} {world : World objKeys Rest}

theorem memberOf_eq {selfIn : Obj} {attr : Qstr} {pos : Nat} {elem : MpMapElem Obj Obj}
    (ran : ∀ heap, (world.members selfIn).1.mpMapLookup objKeys.keys heap (objKeys.newQstr attr)
      .lookup = some ((world.members selfIn).1, .slot pos))
    (here : (world.members selfIn).1.table[pos]? = some elem) :
    memberOf world selfIn attr = some elem.value := by
  rw [memberOf, ran]
  simp [elemValue, here]

theorem memberOf_null {selfIn : Obj} {attr : Qstr}
    (ran : ∀ heap, (world.members selfIn).1.mpMapLookup objKeys.keys heap (objKeys.newQstr attr)
      .lookup = some ((world.members selfIn).1, .null)) :
    memberOf world selfIn attr = none := by
  rw [memberOf, ran]

theorem cachedOpcode_loadGlobal (qst : Qstr) (x : Nat) :
    (cachedOpcode config builtins depth (.loadGlobal qst) x world).2 =
      uncachedOpcode config builtins depth (.loadGlobal qst) world := by
  have hashed := (world.dicts world.globals).2 world.globalsPlain
  rcases cachedElem_spec hashed (objKeys.newQstr qst) x with
    ⟨pos, found, value, y, here, -, ran, isElem⟩ | ⟨-, isElem⟩
  · have isValue := lookupValue_eq Rest ran here
    simp only [cachedOpcode, isElem, uncachedOpcode, mpLoadGlobal, Program.bind_apply,
      Program.get_apply, Interaction.bind, isValue, Program.pure_apply]
    simp [elemValue, here]
  · simp only [cachedOpcode, isElem, uncachedOpcode]

theorem cachedOpcode_loadName (qst : Qstr) (x : Nat) :
    (cachedOpcode config builtins depth (.loadName qst) x world).2 =
      uncachedOpcode config builtins depth (.loadName qst) world := by
  have hashed := (world.dicts world.locals).2 world.localsPlain
  rcases cachedElem_spec hashed (objKeys.newQstr qst) x with
    ⟨pos, found, value, y, here, -, ran, isElem⟩ | ⟨-, isElem⟩
  · have isValue := lookupValue_eq Rest ran here
    simp only [cachedOpcode, isElem, uncachedOpcode, mpLoadName, Program.bind_apply,
      Program.get_apply, Interaction.bind]
    by_cases outer : world.locals = world.globals
    · -- In the outer scope the locals are the globals, which are searched instead.
      rw [outer] at isValue here
      simp only [outer, ne_eq, not_true_eq_false, if_false, mpLoadGlobal, Program.bind_apply,
        Program.get_apply, Interaction.bind, isValue, Program.pure_apply]
      simp [elemValue, here]
    · simp only [ne_eq, outer, not_false_eq_true, if_true, Program.bind_apply, isValue,
        Program.pure_apply, Interaction.bind]
      simp [elemValue, here]
  · simp only [cachedOpcode, isElem, uncachedOpcode]

variable (config builtins depth) in
/-- The condition under which a hit in the members of an instance does what the attribute protocol
does: a load does not ask for the class, and a store is not delegated. -/
def Transparent (world : World objKeys Rest) : Opcode Obj → Prop
  | .loadName _ | .loadGlobal _ => True
  | .loadAttr top qst =>
    (world.types (world.typeOf top)).isInstanceType = true →
      config.cpythonCompat = true → qst = .class_ →
        ∀ value, memberOf world top qst = some value → value = some (world.typeOf top)
  | .storeAttr top qst value =>
    (world.types (world.typeOf top)).isInstanceType = true → value.isSome = true →
      (memberOf world top qst).isSome = true →
        storeSpecial config builtins (mpLoadMethodMaybe config builtins depth)
          depth top qst value world = .done none world

/-- `LOAD_ATTR` reads the same value with any cache byte exactly if the condition holds. -/
theorem cachedOpcode_loadAttr (top : Obj) (qst : Qstr) (x : Nat) :
    (cachedOpcode config builtins depth (.loadAttr top qst) x world).2 =
        uncachedOpcode config builtins depth (.loadAttr top qst) world ↔
      Transparent config builtins depth world (.loadAttr top qst) := by
  by_cases isInstance : (world.types (world.typeOf top)).isInstanceType = true
  · have isUser : (world.types (world.typeOf top)).native = none := by
      simpa [ObjType.isInstanceType] using isInstance
    rcases cachedElem_spec (world.members top).2.1 (objKeys.newQstr qst) x with
      ⟨pos, found, value, y, here, -, ran, isElem⟩ | ⟨ran, isElem⟩
    · have isValue := lookupValue_eq Rest ran here
      have isMember := memberOf_eq ran here
      obtain ⟨member, rfl⟩ : ∃ member, value = some member :=
        Option.isSome_iff_exists.mp ((world.members top).2.2 (found, value)
          (MpMap.mem_entries.mpr ⟨pos, here⟩))
      simp only [cachedOpcode, isInstance, if_true, isElem, Transparent, isMember, forall_true_left,
        Option.some.injEq, forall_eq']
      simp only [uncachedOpcode, mpLoadAttr, mpLoadMethodMaybe, Program.bind_apply,
        Program.get_apply, Interaction.bind]
      by_cases asksClass : config.cpythonCompat = true ∧ qst = .class_
      · simp only [asksClass, and_self, if_true, Program.pure_apply, Interaction.bind, forall_true_left]
        simp [elemValue, here]
      · rw [if_neg asksClass]
        simp only [isUser, mpObjInstanceLoadAttr, Program.bind_apply, Program.get_apply,
          Interaction.bind, isValue, Program.pure_apply]
        simp only [elemValue, here, Option.bind_some, true_iff]
        exact fun compat isClass => absurd ⟨compat, isClass⟩ asksClass
    · simp only [cachedOpcode, isInstance, if_true, isElem, uncachedOpcode, Transparent,
        memberOf_null ran]
      simp
  · simp only [Bool.not_eq_true] at isInstance
    simp [cachedOpcode, isInstance, uncachedOpcode, Transparent]

theorem storeMember_eq {selfIn : Obj} {attr : Qstr} {pos : Nat} {found value : Obj}
    {old : Option Obj}
    (here : (world.members selfIn).1.table[pos]? = some ⟨.key found, old⟩)
    (same : objKeys.keys.equal found (objKeys.newQstr attr) = true) :
    storeMember selfIn attr (some value) world = .done true (writeMember selfIn pos value world) := by
  have ran : (world.members selfIn).1.mpMapLookup objKeys.keys world.heap (objKeys.newQstr attr)
      .addIfNotFound = some ((world.members selfIn).1, .slot pos) := by
    rcases (world.members selfIn).2.1.add_cases world.heap objKeys.lawful (objKeys.newQstr attr) with
      ⟨other, otherFound, otherValue, isThere, sameToo, ran⟩ | ⟨absent, -⟩ | ⟨absent, -⟩
    · rw [ran, (world.members selfIn).2.1.pos_unique objKeys.lawful isThere here
        (objKeys.lawful.trans sameToo (objKeys.lawful.symm same))]
    · have different := absent (found, old) (MpMap.mem_entries.mpr ⟨pos, here⟩)
      rw [same] at different
      cases different
    · have different := absent (found, old) (MpMap.mem_entries.mpr ⟨pos, here⟩)
      rw [same] at different
      cases different
  dsimp only [storeMember]
  split
  · next after place isRan =>
      rw [ran] at isRan
      cases isRan
      rfl
  · next isRan =>
      rw [ran] at isRan
      cases isRan
  · next notSlot _ => exact absurd ran (notSlot _ _)

theorem cachedOpcode_storeAttr (top : Obj) (qst : Qstr) (value : Option Obj) (x : Nat)
    (transparent : Transparent config builtins depth world (.storeAttr top qst value)) :
    (cachedOpcode config builtins depth (.storeAttr top qst value) x world).2 =
      uncachedOpcode config builtins depth (.storeAttr top qst value) world := by
  cases value with
  | none => simp [cachedOpcode]
  | some value =>
    by_cases isInstance : (world.types (world.typeOf top)).isInstanceType = true
    · have isUser : (world.types (world.typeOf top)).native = none := by
        simpa [ObjType.isInstanceType] using isInstance
      rcases cachedElem_spec (world.members top).2.1 (objKeys.newQstr qst) x with
        ⟨pos, found, old, y, here, same, ran, isElem⟩ | ⟨-, isElem⟩
      · have notDelegated := transparent isInstance rfl (by
          rw [memberOf_eq ran here]
          rfl)
        have stores := @storeMember_eq _ _ _ _ world top qst pos found value old here same
        simp only [cachedOpcode, isInstance, isElem, uncachedOpcode, mpStoreAttr,
          mpObjInstanceStoreAttr, Program.bind_apply, Program.get_apply, Interaction.bind, isUser,
          notDelegated, stores, if_true, Program.pure_apply]
      · simp only [cachedOpcode, isInstance, isElem]
    · simp only [Bool.not_eq_true] at isInstance
      simp only [cachedOpcode, isInstance]

/-- A cached operation that meets the condition does what the operation without a cache does, with
any cache byte. -/
theorem cachedOpcode_eq {op : Opcode Obj} (x : Nat)
    (transparent : Transparent config builtins depth world op) :
    (cachedOpcode config builtins depth op x world).2 =
      uncachedOpcode config builtins depth op world := by
  cases op with
  | loadName qst => exact cachedOpcode_loadName qst x
  | loadGlobal qst => exact cachedOpcode_loadGlobal qst x
  | loadAttr top qst => exact (cachedOpcode_loadAttr top qst x).mpr transparent
  | storeAttr top qst value => exact cachedOpcode_storeAttr top qst value x transparent

end Transparency

/-! ## Programs -/

section Programs

/-- A program runs cached operations, each with the address of its cache byte, and anything else in
between, user methods that the operations call included. -/
abbrev VmDriver (Control : Type) (objKeys : ObjKeys Obj) (Rest : Type) : Type :=
  Driver Control (World objKeys Rest) (Nat × Opcode Obj) (Call Obj) Obj (Exn Obj) (Option Obj)

variable (config) in
/-- Perform an operation with the cache bytes of the bytecode. -/
def operateCached (builtins : Builtins objKeys Rest) (depth : Nat) (op : Nat × Opcode Obj)
    (cache : Nat → Nat) (world : World objKeys Rest) :
    (Nat → Nat) × Interaction (World objKeys Rest) (Call Obj) Obj (Exn Obj) (Option Obj) :=
  let performed := cachedOpcode config builtins depth op.2 (cache op.1) world
  (Function.update cache op.1 performed.1, performed.2)

variable (config) in
/-- Perform an operation of bytecode without cache bytes. -/
def operateUncached (builtins : Builtins objKeys Rest) (depth : Nat) (op : Nat × Opcode Obj)
    (cache : Unit) (world : World objKeys Rest) :
    Unit × Interaction (World objKeys Rest) (Call Obj) Obj (Exn Obj) (Option Obj) :=
  (cache, uncachedOpcode config builtins depth op.2 world)

/-- Programs run alike with and without cache bytes, whatever the cache bytes hold, as long as the
operations that they perform meet the condition. -/
theorem lookupCache_transparent {Control : Type} (driver : VmDriver Control objKeys Rest)
    (builtins : Builtins objKeys Rest) (depth count : Nat)
    (cached : Machine Control (World objKeys Rest) (Call Obj) Obj (Exn Obj) (Option Obj) (Nat → Nat))
    (uncached : Machine Control (World objKeys Rest) (Call Obj) Obj (Exn Obj) (Option Obj) Unit)
    (alike : Machine.Alike cached uncached)
    (transparent : ∀ earlier < count, ∀ reached,
      uncached.turns driver (operateUncached config builtins depth) earlier = some reached →
      ∀ op, driver.turn reached.control reached.world = .operation op →
        Transparent config builtins depth reached.world op.2) :
    Machine.AlikeOption (cached.turns driver (operateCached config builtins depth) count)
      (uncached.turns driver (operateUncached config builtins depth) count) :=
  alike.lockstep fun earlier below reached isReached op performs memory _ =>
    cachedOpcode_eq (memory op.1) (transparent earlier below reached isReached op performs)

end Programs

end Operations

/-! ## A property that is added later -/

namespace LateProperty

/-- Objects are numbers; the first four are interned strings. -/
def keysOfNumbers : ObjKeys Nat where
  keys := numberKeys
  lawful := numberKeys_lawful
  newQstr
    | .other _ => 0
    | .setattr => 1
    | .set => 2
    | _ => 3
  newQstr_isQstr qst := by cases qst <;> rfl

/-- A hash table with one entry. -/
def single (value : Nat) : HashMap keysOfNumbers.keys :=
  ⟨⟨true, false, false, 1, 1, [⟨.key 0, some value⟩]⟩, by
    refine ⟨⟨rfl, rfl, fun pos key here => ⟨0, ?_, by omega⟩, ?_, rfl, ?_⟩, ?_⟩
    · obtain ⟨inside, -⟩ := List.getElem?_eq_some_iff.mp here
      have isZero : pos = 0 := Nat.lt_one_iff.mp inside
      rw [isZero, place, List.length_map, List.length_singleton, Nat.mod_one]
    · exact List.pairwise_singleton _ _
    · intro _ entry member
      rw [List.mem_singleton.mp member]
      rfl
    · intro entry member
      rw [List.mem_singleton.mp member]
      rfl⟩

/-- Object 10 has class 11 and a member with the name 0. The class has a property of that name,
with the setter 21, and is marked as having special accessors or not. -/
def world (special : Bool) : World keysOfNumbers Unit where
  dicts index := if index = 1 then ⟨(single 20).1, fun _ => (single 20).2.1⟩
    else ⟨MpMap.mpMapInit 0, fun _ => Hashed.init 0⟩
  locals := 0
  globals := 0
  localsPlain := rfl
  globalsPlain := rfl
  overrideDict := none
  builtins := 0
  typeOf _ := 11
  types _ := ⟨none, special, some 1, []⟩
  members _ := single 5
  subobj obj := obj
  kind _ := .property none (some 21) none
  heap _ := true
  rest := ()

/-- No other types. -/
def builtins : Builtins keysOfNumbers Unit where
  nativeLoad _ _ := Program.halt
  nativeStore _ _ _ := Program.halt
  builtinNext := 12
  typeObject := 13
  newBoundMeth _ _ := Program.halt
  instanceDict _ := Program.halt

/-- A program that assigns 6 to the attribute. -/
def driver : VmDriver Unit keysOfNumbers Unit where
  turn _ _ := .operation (0, .storeAttr 10 (.other 0) (some 6))
  resume _ _ := ()
  catch_ _ _ := ()
  enter _ _ := ()

/-- The program with its cache bytes. -/
def cached (special : Bool) :
    Machine Unit (World keysOfNumbers Unit) (Call Nat) Nat (Exn Nat) (Option Nat) (Nat → Nat) :=
  ⟨(), world special, [], fun _ => 200⟩

/-- The program without cache bytes. -/
def uncached (special : Bool) :
    Machine Unit (World keysOfNumbers Unit) (Call Nat) Nat (Exn Nat) (Option Nat) Unit :=
  ⟨(), world special, [], ()⟩

/-- Without special accessors in the class, the store is the same. -/
theorem lookupCache_transparent_plain :
    Machine.AlikeOption
      ((cached false).turns driver (operateCached ⟨true, true, true, true⟩ builtins 5) 1)
      ((uncached false).turns driver (operateUncached ⟨true, true, true, true⟩ builtins 5) 1) := by
  refine lookupCache_transparent driver builtins 5 1 (cached false) (uncached false) ⟨rfl, rfl, rfl⟩
    fun earlier below reached isReached op performs => ?_
  obtain rfl := Nat.lt_one_iff.mp below
  obtain rfl : uncached false = reached := Option.some.inj isReached
  obtain rfl : (0, Opcode.storeAttr 10 (.other 0) (some 6)) = op := Turn.operation.inj performs
  exact fun _ _ _ => rfl

/-- With a property in the class, the cached store overwrites the member, and the other one calls the
setter. -/
theorem lookupCache_bypasses_setter :
    ¬ Machine.AlikeOption
      ((cached true).turns driver (operateCached ⟨true, true, true, true⟩ builtins 5) 1)
      ((uncached true).turns driver (operateUncached ⟨true, true, true, true⟩ builtins 5) 1) := by
  intro alike
  have pending := Machine.Alike.pending alike
  exact absurd (congrArg List.length pending) (by decide)

end LateProperty

end MultiPython.Vm
