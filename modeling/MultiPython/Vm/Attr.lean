import MultiPython.Logic.Interaction
import MultiPython.Map.HashTable

/-!
# Names and attributes

`mp_load_name`, `mp_load_global`, `mp_load_attr` and `mp_store_attr` of `py/runtime.c`, with the
attributes of instances of user classes from `py/objtype.c`. What runs user code is an interaction:
the callable, its arguments, and what is done with the result, whatever has happened to the world
by then. Functions that call each other through `mp_load_method_maybe` share a bound on how deep
they nest.
-/

namespace MultiPython.Vm

open Logic Map

/-- `MICROPY_CPYTHON_COMPAT`, `MICROPY_PY_BUILTINS_PROPERTY`, `MICROPY_PY_DESCRIPTORS` and
`MICROPY_PY_DELATTR_SETATTR`. -/
structure VmConfig where
  cpythonCompat : Bool
  property : Bool
  descriptors : Bool
  delattrSetattr : Bool
deriving DecidableEq, Repr

/-- Interned strings; those that the attribute protocol knows by name come first. -/
inductive Qstr where
  | class_
  | next
  | dict
  | getattr
  | setattr
  | delattr
  | get
  | set
  | delete
  | other (index : Nat)
deriving DecidableEq, Repr

/-- What maps ask of objects as keys, and `MP_OBJ_NEW_QSTR`. -/
structure ObjKeys (Obj : Type) where
  keys : MpKeys Obj
  lawful : keys.Lawful
  newQstr : Qstr → Obj
  newQstr_isQstr : ∀ qst, keys.isQstr (newQstr qst) = true

/-- What a class member is, as far as a lookup tells members apart. A property without a getter,
setter or deleter has `None` for it. -/
inductive MemberKind (Obj : Type) where
  | staticMethod (func : Obj)
  | classMethod (func : Obj)
  | function
  | property (getter setter deleter : Option Obj)
  | value
deriving DecidableEq

/-- The slots of a type that was not made by `mp_obj_new_type`. -/
structure NativeSlots where
  iternext : Bool
  attr : Bool

/-- `mp_obj_type_t`. `mp_obj_new_type` sets the slots of a user class to the functions for
instances, and leaves `iternext` empty. -/
structure ObjType (Obj : Type) where
  native : Option NativeSlots
  hasSpecialAccessors : Bool
  localsDict : Option Nat
  parents : List Obj

/-- `mp_obj_is_instance_type`. -/
def ObjType.isInstanceType {Obj : Type} (type : ObjType Obj) : Bool := type.native.isNone

variable {Obj : Type}

/-- The map of a dict. Only a dict that keeps its order, or is fixed in ROM, is not hashed. -/
def DictMap (keys : MpKeys Obj) : Type := { map : MpMap Obj Obj // map.isOrdered = false → Hashed keys map }

/-- No key of a map is without a value. -/
def Filled (map : MpMap Obj Obj) : Prop := ∀ entry ∈ map.entries, entry.2.isSome = true

/-- A map that is always a hash table, and whose keys always have values. -/
def HashMap (keys : MpKeys Obj) : Type := { map : MpMap Obj Obj // Hashed keys map ∧ Filled map }

/-- What the functions read and write. The dicts that are set as locals and as globals are plain
ones, as `mp_obj_new_dict` makes them and `eval_exec_helper` checks. -/
structure World (objKeys : ObjKeys Obj) (Rest : Type) where
  dicts : Nat → DictMap objKeys.keys
  locals : Nat
  globals : Nat
  localsPlain : (dicts locals).1.isOrdered = false
  globalsPlain : (dicts globals).1.isOrdered = false
  /-- `mp_module_builtins_override_dict`. -/
  overrideDict : Option Nat
  /-- `mp_module_builtins_globals`. -/
  builtins : Nat
  /-- `mp_obj_get_type`. -/
  typeOf : Obj → Obj
  types : Obj → ObjType Obj
  members : Obj → HashMap objKeys.keys
  /-- `subobj[0]`. -/
  subobj : Obj → Obj
  kind : Obj → MemberKind Obj
  /-- The sizes for which the heap has room. -/
  heap : Nat → Bool
  rest : Rest

/-- A callable and its arguments. -/
abbrev Call (Obj : Type) : Type := Obj × List Obj

/-- Exceptions that the functions raise themselves or let through. -/
inductive Exn (Obj : Type) where
  | nameError (qst : Qstr)
  | noAttribute (base : Obj) (attr : Qstr)
  | unreadableAttribute
  | memoryError
  | raised (exn : Obj)

/-- `dest`: an attribute, and the object that it is to be bound to. -/
abbrev Dest (Obj : Type) : Type := Option Obj × Option Obj

section Protocol

variable (config : VmConfig) (objKeys : ObjKeys Obj) (Rest : Type)

abbrev VmProgram (α : Type) : Type := Program (World objKeys Rest) (Call Obj) Obj (Exn Obj) α

/-- What the protocol uses of other code: the `attr` functions of types that are not user classes,
for loads and for stores, `mp_builtin_next_obj`, `mp_type_object`, and the two functions that make
objects. -/
structure Builtins where
  nativeLoad : Obj → Qstr → VmProgram objKeys Rest (Dest Obj)
  nativeStore : Obj → Qstr → Option Obj → VmProgram objKeys Rest Bool
  builtinNext : Obj
  typeObject : Obj
  newBoundMeth : Obj → Obj → VmProgram objKeys Rest Obj
  instanceDict : Obj → VmProgram objKeys Rest Obj

variable {config objKeys Rest} [DecidableEq Obj]

/-- `mp_map_lookup` with `MP_MAP_LOOKUP`, as the value of the element that it finds. -/
def lookupValue (map : MpMap Obj Obj) (key : Obj) : VmProgram objKeys Rest (Option (Option Obj)) :=
  match map.mpMapLookup objKeys.keys (fun _ => false) key .lookup with
  | some (_, .slot pos) => pure (map.table[pos]?.map MpMapElem.value)
  | some (_, .null) => pure none
  | _ => Program.halt

def mpLoadGlobal (qst : Qstr) : VmProgram objKeys Rest (Option Obj) := do
  let world ← Program.get
  match ← lookupValue (world.dicts world.globals).1 (objKeys.newQstr qst) with
  | some value => pure value
  | none =>
    let override ← match world.overrideDict with
      | some dict => lookupValue (world.dicts dict).1 (objKeys.newQstr qst)
      | none => pure none
    match override with
    | some value => pure value
    | none =>
      match ← lookupValue (world.dicts world.builtins).1 (objKeys.newQstr qst) with
      | some value => pure value
      | none => Program.raise (.nameError qst)

def mpLoadName (qst : Qstr) : VmProgram objKeys Rest (Option Obj) := do
  let world ← Program.get
  if world.locals ≠ world.globals then
    match ← lookupValue (world.dicts world.locals).1 (objKeys.newQstr qst) with
    | some value => pure value
    | none => mpLoadGlobal qst
  else mpLoadGlobal qst

def mpConvertMemberLookup (world : World objKeys Rest) (self member : Obj) : Dest Obj :=
  match world.kind member with
  | .staticMethod func => (some func, none)
  | .classMethod func => (some func, some (world.typeOf self))
  | .function => (some member, some self)
  | .property .. | .value => (some member, none)

/-- The loop over base classes: the first one that has the attribute. -/
def firstFound (lookup : Obj → VmProgram objKeys Rest (Dest Obj)) :
    List Obj → VmProgram objKeys Rest (Dest Obj)
  | [] => pure (none, none)
  | type :: types => do
      let dest ← lookup type
      if dest.1.isSome then pure dest else firstFound lookup types

variable (builtins : Builtins objKeys Rest) (load : Obj → Qstr → VmProgram objKeys Rest (Dest Obj))

/-- `mp_obj_class_lookup` for an attribute of an instance, with a bound on the number of levels of
base classes. -/
def mpObjClassLookup (obj : Obj) (attr : Qstr) : Nat → Obj → VmProgram objKeys Rest (Dest Obj)
  | 0, _ => Program.halt
  | depth + 1, typeObj => do
      let world ← Program.get
      let type := world.types typeObj
      let isNative := !type.isInstanceType && decide (typeObj ≠ builtins.typeObject)
      let elem ← match type.localsDict with
        | some dict => lookupValue (world.dicts dict).1 (objKeys.newQstr attr)
        | none => pure none
      match elem with
      | some (some member) =>
        pure (mpConvertMemberLookup world (if isNative then world.subobj obj else obj) member)
      | some none => Program.halt
      | none =>
        let dest ← if isNative then load (world.subobj obj) attr else pure (none, none)
        if dest.1.isSome then pure dest
        else
          firstFound (mpObjClassLookup obj attr depth)
            (type.parents.filter fun parent => decide (parent ≠ builtins.typeObject))

/-- `mp_call_method_n_kw`: the object that the method is bound to comes first. -/
def callMethod (method : Obj) (self : Option Obj) (args : List Obj) : VmProgram objKeys Rest Obj :=
  Program.perform (method, self.toList ++ args)

variable (config) in
/-- The part of `mp_obj_instance_load_attr` for an attribute that the class has. -/
def loadMember (selfIn : Obj) (dest : Dest Obj) (member : Obj) : VmProgram objKeys Rest (Dest Obj) := do
  let world ← Program.get
  if !(world.types (world.typeOf selfIn)).hasSpecialAccessors then pure dest
  else
    match config.property, world.kind member with
    | true, .property getter _ _ =>
      match getter with
      | none => Program.raise .unreadableAttribute
      | some getter =>
        let value ← Program.perform (getter, [selfIn])
        pure (some value, dest.2)
    | _, _ =>
      if config.descriptors then
        let getMethod ← load member .get
        match getMethod.1 with
        | none => pure dest
        | some method =>
          let value ← callMethod method getMethod.2 [selfIn, world.typeOf selfIn]
          pure (some value, dest.2)
      else pure dest

variable (config) in
/-- The part of `mp_obj_instance_load_attr` for an attribute that nothing has. -/
def tryGetattr (selfIn : Obj) (attr : Qstr) : VmProgram objKeys Rest (Dest Obj) :=
  if attr = .getattr then pure (none, none)
  else if config.delattrSetattr ∧ (attr = .setattr ∨ attr = .delattr) then pure (none, none)
  else do
    let getattr ← load selfIn .getattr
    match getattr.1 with
    | none => pure (none, none)
    | some method =>
      let value ← callMethod method getattr.2 [objKeys.newQstr attr]
      pure (some value, none)

variable (config) in
def mpObjInstanceLoadAttr (depth : Nat) (selfIn : Obj) (attr : Qstr) :
    VmProgram objKeys Rest (Dest Obj) := do
  let world ← Program.get
  match ← lookupValue (world.members selfIn).1 (objKeys.newQstr attr) with
  | some value => pure (value, none)
  | none =>
    if config.cpythonCompat ∧ attr = .dict then
      let dict ← builtins.instanceDict selfIn
      pure (some dict, none)
    else
      let dest ← mpObjClassLookup builtins load selfIn attr depth (world.typeOf selfIn)
      match dest.1 with
      | some member => loadMember config load selfIn dest member
      | none => tryGetattr config load selfIn attr

variable (config) in
def mpLoadMethodMaybe : Nat → Obj → Qstr → VmProgram objKeys Rest (Dest Obj)
  | 0, _, _ => Program.halt
  | depth + 1, obj, attr => do
      let world ← Program.get
      let type := world.types (world.typeOf obj)
      if config.cpythonCompat ∧ attr = .class_ then pure (some (world.typeOf obj), none)
      else
        match type.native with
        | none =>
          mpObjInstanceLoadAttr config builtins (mpLoadMethodMaybe depth) depth obj attr
        | some slots =>
          if attr = .next ∧ slots.iternext then pure (some builtins.builtinNext, some obj)
          else if slots.attr then builtins.nativeLoad obj attr
          else
            match type.localsDict with
            | none => pure (none, none)
            | some dict =>
              match ← lookupValue (world.dicts dict).1 (objKeys.newQstr attr) with
              | some (some member) => pure (mpConvertMemberLookup world obj member)
              | some none => Program.halt
              | none => pure (none, none)

variable (config) in
def mpLoadAttr (depth : Nat) (base : Obj) (attr : Qstr) : VmProgram objKeys Rest (Option Obj) := do
  let dest ← mpLoadMethodMaybe config builtins depth base attr
  match dest.1, dest.2 with
  | none, _ => Program.raise (.noAttribute base attr)
  | some value, none => pure (some value)
  | some method, some self =>
    let bound ← builtins.newBoundMeth method self
    pure (some bound)

variable (config) in
/-- The part of `mp_obj_instance_store_attr` before `skip_special_accessors`: whether the store has
been delegated, and with which success. -/
def storeSpecial (depth : Nat) (selfIn : Obj) (attr : Qstr) (value : Option Obj) :
    VmProgram objKeys Rest (Option Bool) := do
  let world ← Program.get
  if !(world.types (world.typeOf selfIn)).hasSpecialAccessors then pure none
  else
    let member ←
      if config.property ∨ config.descriptors then
        mpObjClassLookup builtins load selfIn attr depth (world.typeOf selfIn)
      else pure (none, none)
    let world ← Program.get
    let delegated ← match member.1 with
      | none => pure none
      | some member =>
        match config.property, world.kind member with
        | true, .property _ setter deleter =>
          match value with
          | none =>
            match deleter with
            | none => pure (some false)
            | some deleter =>
              let _ ← Program.perform (deleter, [selfIn])
              pure (some true)
          | some value =>
            match setter with
            | none => pure (some false)
            | some setter =>
              let _ ← Program.perform (setter, [selfIn, value])
              pure (some true)
        | _, _ =>
          if config.descriptors then
            let method ← load member (if value.isNone then .delete else .set)
            match method.1 with
            | none => pure none
            | some func =>
              let _ ← callMethod func method.2 (selfIn :: value.toList)
              pure (some true)
          else pure none
    match delegated with
    | some success => pure (some success)
    | none =>
      if config.delattrSetattr then
        let method ← load selfIn (if value.isNone then .delattr else .setattr)
        match method.1 with
        | none => pure none
        | some func =>
          let _ ← callMethod func method.2 (objKeys.newQstr attr :: value.toList)
          pure (some true)
      else pure none

end Protocol

end MultiPython.Vm
