import MultiPython.Map.Table

/-!
# Dictionaries

The functions of `py/objdict.c` that change a dictionary or iterate over it. They work on
the map of the dictionary; `dict` and `OrderedDict` share all of them.
-/

namespace MultiPython.Map

open Logic

/-- The exceptions of these functions. -/
inductive DictError where
  | memoryError
  | keyError
  | valueError
  | typeError
deriving DecidableEq, Repr

/-- How a function ends; an answer without a value is `mp_const_none` or the dictionary. -/
inductive DictAnswer (K V : Type) where
  | raised (error : DictError)
  | done
  | value (value : V)
  | item (key : K) (value : V)
deriving DecidableEq, Repr

/-- The function ended for want of memory. -/
def DictAnswer.outOfMemory {K V : Type} : DictAnswer K V → Bool
  | .raised .memoryError => true
  | _ => false

namespace MpMap

variable {K V : Type}

/-! ## Iterating -/

/-- The loop of `dict_iter_next`: the position of the next slot that is filled. -/
def dictIterFrom (table : List (MpMapElem K V)) : Nat → Nat → Option (Option Nat)
  | 0, _ => some none
  | left + 1, pos => do
      let elem ← table[pos]?
      if (slotEntry elem).isSome then some (some pos) else dictIterFrom table left (pos + 1)

def dictIterNext (map : MpMap K V) (cur : Nat) : Option (Option Nat) :=
  dictIterFrom map.table (map.alloc - cur) cur

/-- A loop that calls `dict_iter_next` until it returns `NULL`. -/
def dictItemsFrom (map : MpMap K V) : Nat → Nat → Option (List (K × Option V))
  | 0, _ => none
  | fuel + 1, cur => do
      match ← map.dictIterNext cur with
      | none => some []
      | some pos => do
          let entry ← map.table[pos]? >>= slotEntry
          let rest ← map.dictItemsFrom fuel (pos + 1)
          some (entry :: rest)

/-- The items of a dictionary, in the order of iteration. -/
def dictItems (map : MpMap K V) : Option (List (K × Option V)) := map.dictItemsFrom (map.alloc + 1) 0

/-! ## Changing -/

/-- `dict_make_new` for `OrderedDict`, without arguments. -/
def orderedDictMakeNew : MpMap K V := { mpMapInit 0 with isOrdered := true }

variable [DecidableEq K] (keys : MpKeys K) (heap : Nat → Bool) (noneObject : V) (map : MpMap K V)

/-- `mp_map_lookup(map, key, MP_MAP_LOOKUP_ADD_IF_NOT_FOUND)->value = value`. -/
def storeValue (key : K) (value : Option V) : Option (MpMap K V × DictAnswer K V) := do
  match ← map.mpMapLookup keys heap key .addIfNotFound with
  | (map, .slot pos) => some (map.setValue pos value, .done)
  | (map, .raised) => some (map, .raised .memoryError)
  | (_, .null) => none

def mpObjDictStore (key : K) (value : V) : Option (MpMap K V × DictAnswer K V) :=
  if map.isFixed then
    some (map, .raised .typeError)
  else
    map.storeValue keys heap key (some value)

/-- `dict_get_helper`; without a third argument `fallback` is `none`. -/
def dictGetHelper (index : K) (fallback : Option V) (kind : MpMapLookupKind) :
    Option (MpMap K V × DictAnswer K V) :=
  if kind ≠ .lookup ∧ map.isFixed = true then
    some (map, .raised .typeError)
  else do
    match ← map.mpMapLookup keys heap index kind with
    | (map, .raised) => some (map, .raised .memoryError)
    | (map, .null) =>
      if fallback = none ∧ kind = .removeIfFound then some (map, .raised .keyError)
      else if kind = .addIfNotFound then none
      else some (map, .value (fallback.getD noneObject))
    | (map, .slot pos) => do
        let elem ← map.table[pos]?
        match elem.value with
        | none =>
          if fallback = none ∧ kind = .removeIfFound then some (map, .raised .keyError)
          else if kind = .addIfNotFound then
            some (map.setValue pos (some (fallback.getD noneObject)), .value (fallback.getD noneObject))
          else some (map, .value (fallback.getD noneObject))
        | some value =>
          some (if kind = .removeIfFound then map.setValue pos none else map, .value value)

def mpObjDictDelete (key : K) : Option (MpMap K V × DictAnswer K V) := do
  match ← map.dictGetHelper keys heap noneObject key none .removeIfFound with
  | (map, .raised error) => some (map, .raised error)
  | (map, _) => some (map, .done)

def dictPop (key : K) (fallback : Option V) : Option (MpMap K V × DictAnswer K V) :=
  map.dictGetHelper keys heap noneObject key fallback .removeIfFound

def dictSetdefault (key : K) (fallback : Option V) : Option (MpMap K V × DictAnswer K V) :=
  map.dictGetHelper keys heap noneObject key fallback .addIfNotFound

omit [DecidableEq K] in
/-- `dict_popitem`. The entry is gone before the tuple is allocated. -/
def dictPopitem : Option (MpMap K V × DictAnswer K V) :=
  if map.isFixed then
    some (map, .raised .typeError)
  else do
    match ← map.dictIterNext 0 with
    | none => some (map, .raised .keyError)
    | some pos => do
        let (key, value) ← map.table[pos]? >>= slotEntry
        let popped := { map with used := map.used - 1, table := map.table.set pos ⟨.sentinel, none⟩ }
        if heap 2 then some (popped, .item key (value.getD noneObject))
        else some (popped, .raised .memoryError)

/-- The loops of `dict_update`; an item that is not a pair is `none`. -/
def dictUpdateItems : List (Option (K × Option V)) → MpMap K V → Option (MpMap K V × DictAnswer K V)
  | [], map => some (map, .done)
  | none :: _, map => some (map, .raised .valueError)
  | some (key, value) :: rest, map => do
      match ← map.storeValue keys heap key value with
      | (map, .raised error) => some (map, .raised error)
      | (map, _) => dictUpdateItems rest map

/-- `dict_update` with the items of its positional argument and of the keyword arguments. -/
def dictUpdate (items kwargs : List (Option (K × Option V))) : Option (MpMap K V × DictAnswer K V) :=
  if map.isFixed then
    some (map, .raised .typeError)
  else do
    match ← dictUpdateItems keys heap items map with
    | (map, .raised error) => some (map, .raised error)
    | (map, _) => dictUpdateItems keys heap kwargs map

omit [DecidableEq K] in
/-- `dict_copy`; the copy, if the heap has room for it. -/
def dictCopy : Option (MpMap K V) :=
  if heap map.alloc then
    some { map with isFixed := false, table := map.table.take map.alloc }
  else
    none

omit [DecidableEq K] in
def dictClear : MpMap K V × DictAnswer K V :=
  if map.isFixed then (map, .raised .typeError) else (map.mpMapClear, .done)

end MpMap

/-! ## Several dictionaries -/

/-- The positional argument of `dict_update`: none, a dictionary, or an iterable of pairs. -/
inductive DictSource (ι K V : Type) where
  | nothing
  | dict (other : ι)
  | pairs (items : List (Option (K × V)))
deriving DecidableEq, Repr

/-- A call on one of several dictionaries, and the sizes for which the heap has room. -/
inductive DictCall (ι K V : Type) where
  | store (heap : Nat → Bool) (self : ι) (key : K) (value : V)
  | delete (heap : Nat → Bool) (self : ι) (key : K)
  | pop (heap : Nat → Bool) (self : ι) (key : K) (fallback : Option V)
  | popitem (heap : Nat → Bool) (self : ι)
  | setdefault (heap : Nat → Bool) (self : ι) (key : K) (fallback : Option V)
  | update (heap : Nat → Bool) (self : ι) (source : DictSource ι K V) (kwargs : List (K × V))
  | copy (heap : Nat → Bool) (self into : ι)
  | clear (self : ι)

/-- The items that `dict_update` takes from its positional argument. A dictionary is not
updated from itself. -/
def DictSource.items {ι K V : Type} [DecidableEq ι] (dicts : ι → MpMap K V) (self : ι) :
    DictSource ι K V → Option (List (Option (K × Option V)))
  | .nothing => some []
  | .dict other => if other = self then some [] else (dicts other).dictItems.map (·.map some)
  | .pairs items => some (items.map (·.map fun pair => (pair.1, some pair.2)))

/-- The items of keyword arguments. -/
def kwargsItems {K V : Type} (kwargs : List (K × V)) : List (Option (K × Option V)) :=
  kwargs.map fun pair => some (pair.1, some pair.2)

/-- Put the map that a function returned back. -/
def putBack {ι K V : Type} [DecidableEq ι] (dicts : ι → MpMap K V) (self : ι)
    (result : MpMap K V × DictAnswer K V) : (ι → MpMap K V) × DictAnswer K V :=
  (Function.update dicts self result.1, result.2)

/-- One call. A copy is a new dictionary, which replaces another one. -/
def dictCall {ι K V : Type} [DecidableEq ι] [DecidableEq K] (keys : MpKeys K) (noneObject : V)
    (dicts : ι → MpMap K V) : DictCall ι K V → Option ((ι → MpMap K V) × DictAnswer K V)
  | .store heap self key value =>
    ((dicts self).mpObjDictStore keys heap key value).map (putBack dicts self)
  | .delete heap self key =>
    ((dicts self).mpObjDictDelete keys heap noneObject key).map (putBack dicts self)
  | .pop heap self key fallback =>
    ((dicts self).dictPop keys heap noneObject key fallback).map (putBack dicts self)
  | .popitem heap self => ((dicts self).dictPopitem heap noneObject).map (putBack dicts self)
  | .setdefault heap self key fallback =>
    ((dicts self).dictSetdefault keys heap noneObject key fallback).map (putBack dicts self)
  | .update heap self source kwargs => do
      let items ← source.items dicts self
      let result ← (dicts self).dictUpdate keys heap items (kwargsItems kwargs)
      some (putBack dicts self result)
  | .copy heap self into =>
    match (dicts self).dictCopy heap with
    | some map => some (Function.update dicts into map, .done)
    | none => some (dicts, .raised .memoryError)
  | .clear self => some (putBack dicts self (dicts self).dictClear)

end MultiPython.Map
