import MultiPython.Map.Dict
import MultiPython.Map.HashTable

/-!
# The objects of the `sys` module

`sys.path`, `sys.argv` and `sys.modules` of a context are in its state. The table of the
`sys` module points at copies of them, one set of mirrors for each core, and
`mp_context_refresh` copies the objects of the active context into the mirrors of its core.
Only the objects themselves are copied, so a mirror shares its array of items or its table
with the original until one of the two gets another one. Scripts change the mirrors, and
nothing copies them back.
-/

namespace MultiPython.Context

open Logic Map List Option Function

/-! ## Lists -/

/-- `mp_obj_list_t`; the items are in an array. -/
structure MpObjList where
  len : Nat
  alloc : Nat
  items : Nat
deriving DecidableEq, Repr

def listMinAlloc : Nat := 4

/-- The arrays of items in memory, by their addresses; `none` in an array is `MP_OBJ_NULL`. -/
abbrev ItemArrays (α : Type) := Nat → Option (List (Option α))

/-- A call of a script on a list, with indices as `mp_get_index` returns them. -/
inductive ListCall (α : Type) where
  | append (item : α)
  | insert (index : Nat) (item : α)
  | pop (index : Nat)
  | store (index : Nat) (item : α)
  | reverse
  | clear
deriving DecidableEq, Repr

namespace MpObjList

variable {α : Type} (arrays : ItemArrays α) (self : MpObjList)

/-- `mp_obj_list_init(o, 0)`, with an array at a free address. -/
def mpObjListInit (address : Nat) : Option (ItemArrays α × MpObjList) :=
  if arrays address = none then
    some (Function.update arrays address (some (List.replicate listMinAlloc none)),
      ⟨0, listMinAlloc, address⟩)
  else
    none

def mpObjListGet : Option (List α) := do
  let array ← arrays self.items
  if self.len ≤ array.length then (array.take self.len).mapM id else none

/-- `m_renew` of the array of items: it stays where it is, or moves to a free address. -/
def renew (alloc address : Nat) : Option (ItemArrays α × MpObjList) := do
  let array ← arrays self.items
  let grown := array.take alloc ++ List.replicate (alloc - array.length) none
  if address = self.items ∨ arrays address = none then
    some (Function.update (Function.update arrays self.items none) address (some grown),
      { self with alloc := alloc, items := address })
  else
    none

/-- Write to the array of items. -/
def write (change : List (Option α) → List (Option α)) : Option (ItemArrays α) := do
  let array ← arrays self.items
  some (Function.update arrays self.items (some (change array)))

def mpObjListAppend (item : α) (address : Nat) : Option (ItemArrays α × MpObjList) := do
  let (arrays, self) ←
    if self.alloc ≤ self.len then self.renew arrays (self.alloc * 2) address else some (arrays, self)
  let arrays ← self.write arrays fun array => array.set self.len (some item)
  some (arrays, { self with len := self.len + 1 })

/-- `list_insert` of an object; its place is made by appending one. -/
def listInsert (index : Nat) (item : α) (address : Nat) : Option (ItemArrays α × MpObjList) := do
  let index := min index self.len
  let (arrays, self) ← self.mpObjListAppend arrays item address
  let arrays ← self.write arrays fun array =>
    array.take index ++ some item :: (array.take (self.len - 1)).drop index ++ array.drop self.len
  some (arrays, self)

/-- `list_pop`; an index out of range raises an exception. -/
def listPop (index address : Nat) : Option (ItemArrays α × MpObjList) :=
  if self.len ≤ index then
    some (arrays, self)
  else do
    let arrays ← self.write arrays fun array =>
      (array.take self.len).eraseIdx index ++ none :: array.drop self.len
    let self := { self with len := self.len - 1 }
    if listMinAlloc < self.alloc ∧ 2 * self.len < self.alloc then
      self.renew arrays (self.alloc / 2) address
    else
      some (arrays, self)

/-- `mp_obj_list_store`; an index out of range raises an exception. -/
def mpObjListStore (index : Nat) (item : α) : Option (ItemArrays α × MpObjList) :=
  if self.len ≤ index then
    some (arrays, self)
  else do
    let arrays ← self.write arrays fun array => array.set index (some item)
    some (arrays, self)

def listReverse : Option (ItemArrays α × MpObjList) := do
  let arrays ← self.write arrays fun array => (array.take self.len).reverse ++ array.drop self.len
  some (arrays, self)

def listClear (address : Nat) : Option (ItemArrays α × MpObjList) := do
  let (arrays, self) ← MpObjList.renew arrays { self with len := 0 } listMinAlloc address
  let arrays ← self.write arrays fun array => array.map fun _ => none
  some (arrays, self)

/-- One call. An array that has to move goes to the address. -/
def call (address : Nat) : ListCall α → Option (ItemArrays α × MpObjList)
  | .append item => self.mpObjListAppend arrays item address
  | .insert index item => self.listInsert arrays index item address
  | .pop index => self.listPop arrays index address
  | .store index item => self.mpObjListStore arrays index item
  | .reverse => self.listReverse arrays
  | .clear => self.listClear arrays address

end MpObjList

/-! ## Dictionaries -/

/-- The map of an `mp_obj_dict_t`; the slots are in a table. -/
structure MpObjDict where
  allKeysAreQstrs : Bool
  isFixed : Bool
  isOrdered : Bool
  used : Nat
  alloc : Nat
  table : Nat
deriving DecidableEq, Repr

/-- The tables in memory, by their addresses. -/
abbrev MapTables (K V : Type) := Nat → Option (List (MpMapElem K V))

/-- A call of a script on a dictionary, with the sizes for which the heap has room. -/
inductive DictChange (K V : Type) where
  | store (heap : Nat → Bool) (key : K) (value : V)
  | delete (heap : Nat → Bool) (key : K)

namespace MpObjDict

variable {K V : Type} (tables : MapTables K V) (self : MpObjDict)

/-- `mp_obj_dict_init`, with a table at a free address. -/
def mpObjDictInit (alloc address : Nat) : Option (MapTables K V × MpObjDict) :=
  let map : MpMap K V := .mpMapInit alloc
  if tables address = none then
    some (Function.update tables address (some map.table),
      ⟨map.allKeysAreQstrs, map.isFixed, map.isOrdered, map.used, map.alloc, address⟩)
  else
    none

/-- The map with its table. -/
def toMap (table : List (MpMapElem K V)) : MpMap K V :=
  ⟨self.allKeysAreQstrs, self.isFixed, self.isOrdered, self.used, self.alloc, table⟩

/-- What the dictionary shows. -/
def map : Option (MpMap K V) := (tables self.table).map self.toMap

/-- Write a map back. A map of another size has a new table, and the old one is freed. -/
def setMap (map : MpMap K V) (address : Nat) : Option (MapTables K V × MpObjDict) :=
  let header (table : Nat) : MpObjDict :=
    ⟨map.allKeysAreQstrs, map.isFixed, map.isOrdered, map.used, map.alloc, table⟩
  if map.alloc = self.alloc then
    some (Function.update tables self.table (some map.table), header self.table)
  else if tables address = none then
    some (Function.update (Function.update tables self.table none) address (some map.table),
      header address)
  else
    none

/-- One call. -/
def call [DecidableEq K] (keys : MpKeys K) (noneObject : V) (address : Nat) :
    DictChange K V → Option ((MapTables K V × MpObjDict) × DictAnswer K V)
  | .store heap key value => do
      let map ← self.map tables
      let (map, answer) ← map.mpObjDictStore keys heap key value
      let result ← self.setMap tables map address
      some (result, answer)
  | .delete heap key => do
      let map ← self.map tables
      let (map, answer) ← map.mpObjDictDelete keys heap noneObject key
      let result ← self.setMap tables map address
      some (result, answer)

end MpObjDict

/-! ## Contexts and mirrors -/

/-- The lists of the `sys` module. -/
inductive SysList where
  | path
  | argv
deriving DecidableEq, Repr

/-- `mp_sys_path_obj`, `mp_sys_argv_obj` and `mp_loaded_modules_dict`, or the mirrors of them. -/
structure SysObjs where
  lists : SysList → MpObjList
  modules : MpObjDict

/-- The contexts, the mirrors of the cores and the memory. A context has no objects before
`mp_init` has run in it. -/
structure SysState (ι γ α K V : Type) where
  active : ι → Option γ
  vm : γ → Option SysObjs
  mirrors : ι → Option SysObjs
  arrays : ItemArrays α
  tables : MapTables K V

/-- What happens on a core: a context is switched in, or its mirrors are refreshed, or its task
starts, or a script calls a method of a list or changes `sys.modules`. -/
inductive SysEvent (ι γ α K V : Type) where
  | switchIn (core : ι) (context : γ)
  | refresh (core : ι)
  | start (core : ι) (path argv table : Nat)
  | list (core : ι) (which : SysList) (made : ListCall α) (address : Nat)
  | modules (core : ι) (made : DictChange K V) (address : Nat)

/-- The core on which something happens. -/
def SysEvent.core {ι γ α K V : Type} : SysEvent ι γ α K V → ι
  | .switchIn core _ | .refresh core | .start core _ _ _ | .list core _ _ _ | .modules core _ _ => core

namespace SysState

variable {ι γ α K V : Type} [DecidableEq ι] [DecidableEq γ] (s : SysState ι γ α K V)

/-- `mp_context_refresh`: the objects of the active context are copied. -/
def mpContextRefresh (core : ι) : Option (SysState ι γ α K V) := do
  let context ← s.active core
  some { s with mirrors := Function.update s.mirrors core (s.vm context) }

def mpContextSwitch (core : ι) (context : γ) : Option (SysState ι γ α K V) :=
  { s with active := Function.update s.active core (some context) }.mpContextRefresh core

/-- The part of `multipython_task_template` that makes the objects: `mp_init`, and the lists with
the two first directories of `sys.path`. -/
def startTask (emptyPath libPath : α) (core : ι) (path argv table : Nat) :
    Option (SysState ι γ α K V) := do
  let context ← s.active core
  let (tables, modules) ← MpObjDict.mpObjDictInit s.tables 3 table
  let (arrays, pathList) ← MpObjList.mpObjListInit s.arrays path
  let (arrays, pathList) ← pathList.mpObjListAppend arrays emptyPath path
  let (arrays, pathList) ← pathList.mpObjListAppend arrays libPath path
  let (arrays, argvList) ← MpObjList.mpObjListInit arrays argv
  let objs : SysObjs :=
    { lists
        | .path => pathList
        | .argv => argvList
      modules }
  { s with vm := Function.update s.vm context (some objs), arrays, tables }.mpContextRefresh core

/-- A script calls a method of `sys.path` or `sys.argv`: of the mirrors of the core that the table
of the `sys` module points at. -/
def callList (replCore core : ι) (which : SysList) (made : ListCall α) (address : Nat) :
    Option (SysState ι γ α K V) := do
  let _ ← s.active core
  let objs ← s.mirrors replCore
  let (arrays, list) ← (objs.lists which).call s.arrays address made
  some { s with
    arrays
    mirrors := Function.update s.mirrors replCore
      (some { objs with lists := Function.update objs.lists which list }) }

/-- A script changes `sys.modules`. -/
def callModules [DecidableEq K] (keys : MpKeys K) (noneObject : V) (replCore core : ι)
    (made : DictChange K V) (address : Nat) : Option (SysState ι γ α K V × DictAnswer K V) := do
  let _ ← s.active core
  let objs ← s.mirrors replCore
  let ((tables, modules), answer) ← objs.modules.call s.tables keys noneObject address made
  some ({ s with
    tables
    mirrors := Function.update s.mirrors replCore (some { objs with modules }) }, answer)

/-- The directories in which `find_file` searches. -/
def findFilePaths (core : ι) : Option (List α) := do
  let context ← s.active core
  let objs ← s.vm context
  (objs.lists .path).mpObjListGet s.arrays

/-- What a script reads from a list of the `sys` module. -/
def readList (replCore : ι) (which : SysList) : Option (List α) := do
  let objs ← s.mirrors replCore
  (objs.lists which).mpObjListGet s.arrays

/-- What a script reads from `sys.modules`. -/
def readModules (replCore : ι) : Option (MpMap K V) := do
  let objs ← s.mirrors replCore
  objs.modules.map s.tables

end SysState

/-! ## What scripts expect -/

variable {ι γ α K V : Type}

/-- A call on a list by itself. -/
def specList (list : List α) : ListCall α → List α
  | .append item => list ++ [item]
  | .insert index item => list.insertIdx (min index list.length) item
  | .pop index => list.eraseIdx index
  | .store index item => list.set index item
  | .reverse => list.reverse
  | .clear => []

/-- A change of a dictionary by itself; an exception leaves it alone. -/
def specModules (keys : MpKeys K) (modules : List (K × Option V)) :
    DictChange K V → DictAnswer K V → List (K × Option V)
  | _, .raised _ => modules
  | .store heap key value, _ => specCall keys modules (.add heap key (some value))
  | .delete heap key, _ => specCall keys modules (.remove heap key)

/-- The objects of a context by themselves. -/
structure SysSpec (α K V : Type) where
  lists : SysList → List α
  modules : List (K × Option V)

/-- The code's state beside the objects that each context should have. -/
structure SysHistory (ι γ α K V : Type) where
  sys : SysState ι γ α K V
  spec : γ → Option (SysSpec α K V)

/-- Nothing has been switched in or started. -/
def SysHistory.initial : SysHistory ι γ α K V where
  sys := ⟨fun _ => none, fun _ => none, fun _ => none, fun _ => none, fun _ => none⟩
  spec := fun _ => none

/-- What does not depend on the run: the core that the table of the `sys` module names, the two
first directories of `sys.path`, the keys of modules and `mp_const_none`. -/
structure SysPort (ι α K V : Type) where
  replCore : ι
  emptyPath : α
  libPath : α
  keys : MpKeys K
  noneObject : V

section Histories

variable [DecidableEq ι] [DecidableEq γ] [DecidableEq K] (port : SysPort ι α K V)

/-- One event. Scripts run in contexts that have been started, and change the objects of their
context. -/
def SysHistory.next (s : SysHistory ι γ α K V) : SysEvent ι γ α K V → Option (SysHistory ι γ α K V)
  | .switchIn core context => do
      let sys ← s.sys.mpContextSwitch core context
      some { s with sys }
  | .refresh core => do
      let sys ← s.sys.mpContextRefresh core
      some { s with sys }
  | .start core path argv table => do
      let context ← s.sys.active core
      let sys ← s.sys.startTask port.emptyPath port.libPath core path argv table
      let objs : SysSpec α K V :=
        { lists
            | .path => [port.emptyPath, port.libPath]
            | .argv => []
          modules := [] }
      some ⟨sys, Function.update s.spec context (some objs)⟩
  | .list core which made address => do
      let context ← s.sys.active core
      let objs ← s.spec context
      let sys ← s.sys.callList port.replCore core which made address
      let lists := Function.update objs.lists which (specList (objs.lists which) made)
      some ⟨sys, Function.update s.spec context (some { objs with lists })⟩
  | .modules core made address => do
      let context ← s.sys.active core
      let objs ← s.spec context
      let (sys, answer) ← s.sys.callModules port.keys port.noneObject port.replCore core made address
      let modules := specModules port.keys objs.modules made answer
      some ⟨sys, Function.update s.spec context (some { objs with modules })⟩

/-- A dictionary has these entries, and counts them. -/
def ShowsModules (modules : List (K × Option V)) (map : MpMap K V) : Prop :=
  map.entries.Perm modules ∧ map.used = modules.length

/-- Every context has the objects that it should have: a refresh would show them, `find_file`
searches the directories of its `sys.path`, and its scripts read them. -/
structure Coherent (s : SysHistory ι γ α K V) : Prop where
  kept : ∀ context objs, s.spec context = some objs → ∃ vm, s.sys.vm context = some vm ∧
    (∀ which, (vm.lists which).mpObjListGet s.sys.arrays = some (objs.lists which)) ∧
    ∃ map, vm.modules.map s.sys.tables = some map ∧ ShowsModules objs.modules map
  searched : ∀ core context objs, s.sys.active core = some context → s.spec context = some objs →
    s.sys.findFilePaths core = some (objs.lists .path)
  lists : ∀ core context objs, s.sys.active core = some context → s.spec context = some objs →
    ∀ which, s.sys.readList port.replCore which = some (objs.lists which)
  modules : ∀ core context objs, s.sys.active core = some context → s.spec context = some objs →
    ∃ map, s.sys.readModules port.replCore = some map ∧ ShowsModules objs.modules map

/-- The key is in the table. -/
def hasKey (keys : MpKeys K) (table : List (MpMapElem K V)) (key : K) : Bool :=
  (table.filterMap MpMap.slotEntry).any fun entry => keys.equal entry.1 key

/-- A call that leaves the length of a list as it is. -/
def ListCall.keepsLength (len : Nat) : ListCall α → Bool
  | .store _ _ | .reverse => true
  | .pop index => decide (len ≤ index)
  | .append _ | .insert _ _ | .clear => false

/-- A change that leaves the keys of a dictionary as they are. -/
def DictChange.keepsKeys (keys : MpKeys K) (table : List (MpMapElem K V)) : DictChange K V → Bool
  | .store _ key _ => hasKey keys table key
  | .delete _ key => !hasKey keys table key

/-- The event is on the core whose mirrors the `sys` module shows, and no script changes the
length of a list or the keys of `sys.modules`. -/
def SysFits (s : SysHistory ι γ α K V) (event : SysEvent ι γ α K V) : Prop :=
  event.core = port.replCore ∧
    match event with
    | .switchIn _ _ | .refresh _ | .start _ _ _ _ => True
    | .list _ which made _ =>
      ((s.sys.mirrors port.replCore).all fun objs =>
        made.keepsLength (objs.lists which).len) = true
    | .modules _ made _ =>
      ((s.sys.mirrors port.replCore).all fun objs =>
        (s.sys.tables objs.modules.table).all fun table => made.keepsKeys port.keys table) = true

instance (s : SysHistory ι γ α K V) (event : SysEvent ι γ α K V) :
    Decidable (SysFits port s event) := by
  cases event <;> unfold SysFits <;> infer_instance

end Histories

/-! ## One list, one dictionary -/

/-- The array of a list has these items, and the list is as long. -/
def HoldsItems (arrays : ItemArrays α) (list : MpObjList) (items : List α) : Prop :=
  ∃ rest, arrays list.items = some (items.map some ++ rest) ∧ list.len = items.length

/-- The table of a dictionary has these entries. -/
def HoldsModules (keys : MpKeys K) (tables : MapTables K V) (dict : MpObjDict)
    (modules : List (K × Option V)) : Prop :=
  ∃ table, tables dict.table = some table ∧ dict.isFixed = false ∧
    Hashed keys (dict.toMap table) ∧ (dict.toMap table).entries.Perm modules

section Objects

variable {arrays : ItemArrays α} {list : MpObjList} {items : List α}

theorem mapM_some (items : List α) : (items.map some).mapM id = some items := by
  induction items with
  | nil => rfl
  | cons item rest ih => simp [ih]

theorem HoldsItems.get (holds : HoldsItems arrays list items) :
    list.mpObjListGet arrays = some items := by
  obtain ⟨rest, here, len⟩ := holds
  have within : list.len ≤ (items.map some ++ rest).length := by simp [len]
  have shown : (items.map some ++ rest).take list.len = items.map some := by
    rw [len]
    exact take_left' (by simp)
  simp only [MpObjList.mpObjListGet, here, bind_eq_bind, bind_some, within, if_true,
    shown, mapM_some]

/-- A call that keeps the length of a list changes nothing but the items in its array. -/
theorem HoldsItems.call (holds : HoldsItems arrays list items) {made : ListCall α}
    (keeps : made.keepsLength list.len = true) (address : Nat) :
    ∃ after, list.call arrays address made = some (after, list) ∧
      (∀ other, other ≠ list.items → after other = arrays other) ∧
      HoldsItems after list (specList items made) := by
  obtain ⟨rest, here, len⟩ := holds
  -- Writing to the array leaves the other arrays alone.
  have written : ∀ (change : List (Option α) → List (Option α)) (changed : List α),
      change (items.map some ++ rest) = changed.map some ++ rest → changed.length = items.length →
      ∃ after, list.write arrays change = some after ∧
        (∀ other, other ≠ list.items → after other = arrays other) ∧
        HoldsItems after list changed := by
    intro change changed result same
    refine ⟨_, by simp only [MpObjList.write, here, bind_eq_bind, bind_some]; rfl,
      fun other different => update_of_ne different _ _, rest, ?_, len.trans same.symm⟩
    rw [update_self, result]
  cases made with
  | append item => cases keeps
  | insert index item => cases keeps
  | clear => cases keeps
  | pop index =>
    have outside : list.len ≤ index := by simpa [ListCall.keepsLength] using keeps
    have unchanged : specList items (.pop index) = items :=
      eraseIdx_of_length_le (len ▸ outside)
    rw [unchanged]
    exact ⟨arrays, by simp [MpObjList.call, MpObjList.listPop, outside], fun _ _ => rfl, rest, here, len⟩
  | store index item =>
    by_cases outside : list.len ≤ index
    · have unchanged : specList items (.store index item) = items :=
        set_eq_of_length_le (len ▸ outside)
      rw [unchanged]
      exact ⟨arrays, by simp [MpObjList.call, MpObjList.mpObjListStore, outside], fun _ _ => rfl,
        rest, here, len⟩
    · have inside : index < (items.map some).length := by
        rw [length_map, ← len]
        omega
      obtain ⟨after, ran, frame, holds⟩ := written (fun array => array.set index (some item))
        (items.set index item) (by simp only [set_append_left _ _ inside, map_set])
        (length_set)
      exact ⟨after, by simp [MpObjList.call, MpObjList.mpObjListStore, outside, ran], frame, holds⟩
  | reverse =>
    have front : (items.map some ++ rest).take list.len = items.map some := by
      rw [len]
      exact take_left' (by simp)
    have back : (items.map some ++ rest).drop list.len = rest := by
      rw [len]
      exact drop_left' (by simp)
    obtain ⟨after, ran, frame, holds⟩ := written
      (fun array => (array.take list.len).reverse ++ array.drop list.len) items.reverse
      (by simp only [front, back, map_reverse]) length_reverse
    exact ⟨after, by simp [MpObjList.call, MpObjList.listReverse, ran], frame, holds⟩

end Objects

variable {made : DictChange K V}

section Modules

variable [DecidableEq K] {keys : MpKeys K} {tables : MapTables K V} {dict : MpObjDict}
  {modules : List (K × Option V)}

omit [DecidableEq K] in
theorem hasKey_eq_false {table : List (MpMapElem K V)} {key : K} :
    hasKey keys table key = false ↔ Absent keys (dict.toMap table).entries key := by
  rw [hasKey, List.any_eq_false]
  simp only [Bool.not_eq_true]
  rfl

omit [DecidableEq K] in
/-- Writing back a map of the same size changes the table only. -/
theorem setMap_table (table : List (MpMapElem K V)) (address : Nat) :
    dict.setMap tables (dict.toMap table) address =
      some (Function.update tables dict.table (some table), dict) := by
  simp [MpObjDict.setMap, MpObjDict.toMap]

/-- A change that keeps the keys of a dictionary changes nothing but the values in its table. -/
theorem HoldsModules.call (lawful : keys.Lawful) (holds : HoldsModules keys tables dict modules)
    (keeps : ((tables dict.table).all fun table => made.keepsKeys keys table) = true)
    (noneObject : V) (address : Nat) :
    ∃ after answer, dict.call tables keys noneObject address made = some ((after, dict), answer) ∧
      (∀ other, other ≠ dict.table → after other = tables other) ∧
      HoldsModules keys after dict (specModules keys modules made answer) := by
  obtain ⟨table, here, notFixed, hashed, entries⟩ := holds
  have apart : modules.Pairwise (Apart keys) := (lawful.apart_perm entries).mp hashed.apart
  have shown : dict.map tables = some (dict.toMap table) := by simp [MpObjDict.map, here]
  have kept : made.keepsKeys keys table = true := by simpa [here] using keeps
  cases made with
  | store heap key value =>
    rcases hashed.add_cases heap lawful key with
      ⟨pos, found, old, there, same, ran⟩ | ⟨absent, _⟩ | ⟨absent, _⟩
    · obtain ⟨others, split⟩ := MpMap.entries_split there
      have changed := MpMap.setValue_entries there split (some value)
      have specSplit : (specModules keys modules (.store heap key value) .done).Perm
          ((found, some value) :: others) :=
        Assoc.insert_perm lawful.congruent (entries.symm.trans split) apart same _ _
      refine ⟨Function.update tables dict.table
          (some ((dict.toMap table).setValue pos (some value)).table), .done, ?_,
        fun other different => update_of_ne different _ _, ?_⟩
      · have stored : (dict.toMap table).mpObjDictStore keys heap key value =
            some (dict.toMap ((dict.toMap table).setValue pos (some value)).table, .done) := by
          simp only [MpMap.mpObjDictStore, MpMap.storeValue, ran]
          simp [MpObjDict.toMap, notFixed, MpMap.setValue]
        simp only [MpObjDict.call, shown, bind_eq_bind, bind_some, stored,
          setMap_table]
      · exact ⟨_, update_self _ _ _, notFixed, hashed.setValue lawful there _,
          changed.trans specSplit.symm⟩
    · rw [← hasKey_eq_false] at absent
      simp [DictChange.keepsKeys, absent] at kept
    · rw [← hasKey_eq_false] at absent
      simp [DictChange.keepsKeys, absent] at kept
  | delete heap key =>
    have absent : Absent keys (dict.toMap table).entries key := by
      rw [← hasKey_eq_false]
      simpa [DictChange.keepsKeys] using kept
    have notAdd : MpMapLookupKind.removeIfFound ≠ .addIfNotFound := by simp
    rcases hashed.lookup_cases heap lawful key notAdd with ⟨_, ran⟩ | ⟨pos, found, old, there, same, _⟩
    · refine ⟨Function.update tables dict.table (some table), .raised .keyError, ?_,
        fun other different => update_of_ne different _ _,
        table, update_self _ _ _, notFixed, hashed, entries⟩
      have raised : (dict.toMap table).mpObjDictDelete keys heap noneObject key =
          some (dict.toMap table, .raised .keyError) := by
        have open_ : (dict.toMap table).isFixed = false := notFixed
        simp [MpMap.mpObjDictDelete, MpMap.dictGetHelper, open_, ran]
      simp only [MpObjDict.call, shown, bind_eq_bind, bind_some, raised, setMap_table]
    · have different := absent (found, old) (MpMap.mem_entries.mpr ⟨pos, there⟩)
      rw [same] at different
      cases different

omit [DecidableEq K] in
theorem HoldsModules.shows (holds : HoldsModules keys tables dict modules) :
    ∃ map, dict.map tables = some map ∧ ShowsModules modules map := by
  obtain ⟨table, here, _, hashed, entries⟩ := holds
  exact ⟨dict.toMap table, by simp [MpObjDict.map, here], entries,
    hashed.used.trans entries.length_eq⟩

end Modules

/-! ## Every run -/

section Runs

variable [DecidableEq ι] [DecidableEq γ] [DecidableEq K] {port : SysPort ι α K V}
  {s : SysHistory ι γ α K V}

/-- Only the core of the `sys` module is in use, its mirrors are those of its context, and no
two objects of contexts share memory. -/
structure Synced (port : SysPort ι α K V) (s : SysHistory ι γ α K V) : Prop where
  oneCore : ∀ core, core ≠ port.replCore → s.sys.active core = none
  mirrored : ∀ context, s.sys.active port.replCore = some context →
    s.sys.mirrors port.replCore = s.sys.vm context
  started : ∀ context vm, s.sys.vm context = some vm → ∃ objs, s.spec context = some objs
  holds : ∀ context objs, s.spec context = some objs → ∃ vm, s.sys.vm context = some vm ∧
    (∀ which, HoldsItems s.sys.arrays (vm.lists which) (objs.lists which)) ∧
    HoldsModules port.keys s.sys.tables vm.modules objs.modules
  apartLists : ∀ {context other vm otherVm which otherWhich}, s.sys.vm context = some vm →
    s.sys.vm other = some otherVm → (vm.lists which).items = (otherVm.lists otherWhich).items →
    context = other ∧ which = otherWhich
  apartTables : ∀ {context other vm otherVm}, s.sys.vm context = some vm →
    s.sys.vm other = some otherVm → vm.modules.table = otherVm.modules.table → context = other

omit [DecidableEq K] [DecidableEq ι] [DecidableEq γ] in
theorem Synced.coherent (synced : Synced port s) : Coherent port s := by
  have shown : ∀ core context objs, s.sys.active core = some context →
      s.spec context = some objs → ∃ vm, s.sys.vm context = some vm ∧
        s.sys.mirrors port.replCore = some vm ∧
        (∀ which, (vm.lists which).mpObjListGet s.sys.arrays = some (objs.lists which)) ∧
        ∃ map, vm.modules.map s.sys.tables = some map ∧ ShowsModules objs.modules map := by
    intro core context objs active isSpec
    have isRepl : core = port.replCore := by
      by_contra different
      rw [synced.oneCore core different] at active
      cases active
    subst isRepl
    obtain ⟨vm, isVm, lists, modules⟩ := synced.holds context objs isSpec
    exact ⟨vm, isVm, (synced.mirrored context active).trans isVm, fun which => (lists which).get,
      modules.shows⟩
  refine ⟨fun context objs isSpec => ?_, fun core context objs active isSpec => ?_,
    fun core context objs active isSpec which => ?_, fun core context objs active isSpec => ?_⟩
  · obtain ⟨vm, isVm, lists, modules⟩ := synced.holds context objs isSpec
    exact ⟨vm, isVm, fun which => (lists which).get, modules.shows⟩
  · obtain ⟨vm, isVm, _, lists, _⟩ := shown core context objs active isSpec
    simpa [SysState.findFilePaths, active, isVm] using lists .path
  · obtain ⟨vm, _, mirrored, lists, _⟩ := shown core context objs active isSpec
    simpa [SysState.readList, mirrored] using lists which
  · obtain ⟨vm, _, mirrored, _, modules⟩ := shown core context objs active isSpec
    simpa [SysState.readModules, mirrored] using modules

omit [DecidableEq K] [DecidableEq γ] in
/-- A refresh copies the objects of the active context. -/
theorem Synced.refresh (synced : Synced port s) {sys : SysState ι γ α K V}
    (refreshed : s.sys.mpContextRefresh port.replCore = some sys) : Synced port ⟨sys, s.spec⟩ := by
  cases active : s.sys.active port.replCore with
  | none => simp [SysState.mpContextRefresh, active] at refreshed
  | some context =>
    simp only [SysState.mpContextRefresh, active, bind_eq_bind, bind_some,
      some.injEq] at refreshed
    subst refreshed
    refine ⟨synced.oneCore, fun other isActive => ?_, synced.started, synced.holds,
      synced.apartLists, synced.apartTables⟩
    obtain rfl : context = other := some.inj (active.symm.trans isActive)
    exact update_self _ _ _

variable {sys : SysState ι γ α K V}

omit [DecidableEq K] [DecidableEq γ] in
theorem Synced.switchIn (synced : Synced port s) {context : γ}
    (switched : s.sys.mpContextSwitch port.replCore context = some sys) :
    Synced port ⟨sys, s.spec⟩ := by
  simp only [SysState.mpContextSwitch, SysState.mpContextRefresh, update_self,
    bind_eq_bind, bind_some, some.injEq] at switched
  subst switched
  refine ⟨fun core different => ?_, fun other isActive => ?_, synced.started, synced.holds,
    synced.apartLists, synced.apartTables⟩
  · exact (update_of_ne different _ _).trans (synced.oneCore core different)
  · change Function.update s.sys.active port.replCore (some context) port.replCore = some other at isActive
    rw [update_self, some.injEq] at isActive
    subst isActive
    exact update_self _ _ _

omit [DecidableEq K] [DecidableEq ι] in
/-- The items and the entries of one context change, and what the other contexts own does not. -/
theorem Synced.change (synced : Synced port s) {context : γ} {vm : SysObjs} {objs : SysSpec α K V}
    {arrays : ItemArrays α} {tables : MapTables K V} (isVm : s.sys.vm context = some vm)
    (lists : ∀ which, HoldsItems arrays (vm.lists which) (objs.lists which))
    (modules : HoldsModules port.keys tables vm.modules objs.modules)
    (frameArrays : ∀ {other otherVm} which, other ≠ context → s.sys.vm other = some otherVm →
      arrays (otherVm.lists which).items = s.sys.arrays (otherVm.lists which).items)
    (frameTables : ∀ {other otherVm}, other ≠ context → s.sys.vm other = some otherVm →
      tables otherVm.modules.table = s.sys.tables otherVm.modules.table) :
    Synced port ⟨{ s.sys with arrays, tables }, Function.update s.spec context (some objs)⟩ := by
  refine ⟨synced.oneCore, synced.mirrored, fun other otherVm isOther => ?_,
    fun other otherObjs isOther => ?_, synced.apartLists, synced.apartTables⟩
  · by_cases same : other = context
    · subst same
      exact ⟨objs, update_self _ _ _⟩
    · obtain ⟨otherObjs, isSpec⟩ := synced.started other otherVm isOther
      exact ⟨otherObjs, (update_of_ne same _ _).trans isSpec⟩
  · change Function.update s.spec context (some objs) other = some otherObjs at isOther
    by_cases same : other = context
    · subst same
      rw [update_self, some.injEq] at isOther
      subst isOther
      exact ⟨vm, isVm, lists, modules⟩
    · rw [update_of_ne same] at isOther
      obtain ⟨otherVm, isOtherVm, otherLists, table, here, otherModules⟩ :=
        synced.holds other otherObjs isOther
      refine ⟨otherVm, isOtherVm, fun which => ?_, table,
        (frameTables same isOtherVm).trans here, otherModules⟩
      obtain ⟨rest, here, len⟩ := otherLists which
      exact ⟨rest, (frameArrays which same isOtherVm).trans here, len⟩

omit [DecidableEq K] in
/-- A call on a list that keeps its length is seen through the mirror and the original, and by
no other context. -/
theorem Synced.callList (synced : Synced port s) {context : γ} {objs : SysSpec α K V}
    (active : s.sys.active port.replCore = some context) (isSpec : s.spec context = some objs)
    {which : SysList} {made : ListCall α} {address : Nat} {sys : SysState ι γ α K V}
    (keeps : ((s.sys.mirrors port.replCore).all fun objs =>
      made.keepsLength (objs.lists which).len) = true)
    (called : s.sys.callList port.replCore port.replCore which made address = some sys) :
    Synced port ⟨sys, Function.update s.spec context (some { objs with
      lists := Function.update objs.lists which (specList (objs.lists which) made) })⟩ := by
  obtain ⟨vm, isVm, lists, modules⟩ := synced.holds context objs isSpec
  have mirrored := (synced.mirrored context active).trans isVm
  simp only [mirrored, all_some] at keeps
  obtain ⟨after, ran, frame, changed⟩ := (lists which).call keeps address
  have sameMirrors := update_eq_self port.replCore s.sys.mirrors
  rw [mirrored] at sameMirrors
  simp only [SysState.callList, active, mirrored, ran, bind_eq_bind, bind_some,
    update_eq_self, sameMirrors, some.injEq] at called
  subst called
  refine synced.change isVm (fun other => ?_) modules (fun {other otherVm} which different isOther => ?_)
    fun _ _ => rfl
  · by_cases isWhich : other = which
    · subst isWhich
      simpa using changed
    · obtain ⟨rest, here, len⟩ := lists other
      have different : (vm.lists other).items ≠ (vm.lists which).items := fun shared =>
        isWhich (synced.apartLists isVm isVm shared).2
      refine ⟨rest, ?_, ?_⟩
      · simpa [isWhich] using (frame _ different).trans here
      · simpa [isWhich] using len
  · exact frame _ fun shared => different (synced.apartLists isOther isVm shared).1

theorem Synced.callModules (lawful : port.keys.Lawful) (synced : Synced port s) {context : γ}
    {objs : SysSpec α K V} (active : s.sys.active port.replCore = some context)
    (isSpec : s.spec context = some objs) {address : Nat} {answer : DictAnswer K V}
    (keeps : ((s.sys.mirrors port.replCore).all fun objs =>
      (s.sys.tables objs.modules.table).all fun table => made.keepsKeys port.keys table) = true)
    (called : s.sys.callModules port.keys port.noneObject port.replCore port.replCore made address =
      some (sys, answer)) :
    Synced port ⟨sys, Function.update s.spec context (some { objs with
      modules := specModules port.keys objs.modules made answer })⟩ := by
  obtain ⟨vm, isVm, lists, modules⟩ := synced.holds context objs isSpec
  have mirrored := (synced.mirrored context active).trans isVm
  simp only [mirrored, all_some] at keeps
  obtain ⟨after, given, ran, frame, changed⟩ := modules.call lawful keeps port.noneObject address
  have sameMirrors := update_eq_self port.replCore s.sys.mirrors
  rw [mirrored] at sameMirrors
  simp only [SysState.callModules, active, mirrored, ran, bind_eq_bind, bind_some,
    sameMirrors, some.injEq, Prod.mk.injEq] at called
  obtain ⟨rfl, rfl⟩ := called
  exact synced.change isVm lists changed (fun _ _ _ => rfl)
    fun different isOther => frame _ fun shared => different (synced.apartTables isOther isVm shared)

omit [DecidableEq K] [DecidableEq γ] [DecidableEq ι] in
/-- A new list gets an array of its own. -/
theorem mpObjListInit_eq_some {arrays after : ItemArrays α} {address : Nat} {list : MpObjList}
    (made : MpObjList.mpObjListInit arrays address = some (after, list)) :
    arrays address = none ∧ list = ⟨0, listMinAlloc, address⟩ ∧
      after = Function.update arrays address (some (List.replicate listMinAlloc none)) := by
  unfold MpObjList.mpObjListInit at made
  split at made
  case isTrue free =>
    simp only [some.injEq, Prod.mk.injEq] at made
    exact ⟨free, made.2.symm, made.1.symm⟩
  case isFalse => cases made

omit [DecidableEq K] [DecidableEq γ] [DecidableEq ι] in
/-- Two items fit in the array of a new list. -/
theorem append_two {arrays afterInit afterOne afterTwo : ItemArrays α} {address : Nat}
    {list one two : MpObjList} {first second : α}
    (made : MpObjList.mpObjListInit arrays address = some (afterInit, list))
    (appendedOne : list.mpObjListAppend afterInit first address = some (afterOne, one))
    (appendedTwo : one.mpObjListAppend afterOne second address = some (afterTwo, two)) :
    arrays address = none ∧ two = ⟨2, listMinAlloc, address⟩ ∧
      afterTwo = Function.update arrays address (some [some first, some second, none, none]) := by
  obtain ⟨free, rfl, rfl⟩ := mpObjListInit_eq_some made
  simp only [MpObjList.mpObjListAppend, MpObjList.write, listMinAlloc, Nat.le_zero_eq, OfNat.ofNat_ne_zero,
    if_false, bind_eq_bind, bind_some, update_self, update_idem,
    some.injEq, Prod.mk.injEq] at appendedOne
  obtain ⟨rfl, rfl⟩ := appendedOne
  simp only [MpObjList.mpObjListAppend, MpObjList.write, Nat.reduceAdd, Nat.reduceLeDiff, if_false,
    bind_eq_bind, bind_some, update_self, update_idem,
    some.injEq, Prod.mk.injEq] at appendedTwo
  obtain ⟨rfl, rfl⟩ := appendedTwo
  exact ⟨free, rfl, rfl⟩

omit [DecidableEq K] [DecidableEq γ] [DecidableEq ι] in
/-- A new dictionary has a table of its own, and no entries. -/
theorem mpObjDictInit_eq_some (keys : MpKeys K) {tables after : MapTables K V} {alloc address : Nat}
    {dict : MpObjDict} (made : MpObjDict.mpObjDictInit tables alloc address = some (after, dict)) :
    tables address = none ∧ dict.table = address ∧ HoldsModules keys after dict [] ∧
      ∀ other, other ≠ address → after other = tables other := by
  unfold MpObjDict.mpObjDictInit at made
  split at made
  case isTrue free =>
    simp only [some.injEq, Prod.mk.injEq] at made
    obtain ⟨rfl, rfl⟩ := made
    refine ⟨free, rfl, ⟨_, update_self _ _ _, rfl, .init alloc, ?_⟩,
      fun other different => update_of_ne different _ _⟩
    simp [MpMap.entries, MpObjDict.toMap, MpMap.mpMapInit, MpMap.slotEntry]
  case isFalse => cases made

omit [DecidableEq K] [DecidableEq ι] in
/-- New objects at new addresses share no memory with those of other contexts. -/
theorem apart_update {β δ : Type} {vm : γ → Option β} (address : β → δ → Nat)
    (apart : ∀ {one other oneVm otherVm first second}, vm one = some oneVm →
      vm other = some otherVm → address oneVm first = address otherVm second →
      one = other ∧ first = second)
    {new : β} (own : ∀ {first second}, address new first = address new second → first = second)
    (fresh : ∀ {other otherVm} first second, vm other = some otherVm →
      address otherVm first ≠ address new second)
    {context one other : γ} {oneVm otherVm : β} (first second : δ)
    (isOne : Function.update vm context (some new) one = some oneVm)
    (isOther : Function.update vm context (some new) other = some otherVm)
    (shared : address oneVm first = address otherVm second) : one = other ∧ first = second := by
  by_cases isFirst : one = context
  · subst isFirst
    rw [update_self, some.injEq] at isOne
    subst isOne
    by_cases isSecond : other = one
    · subst isSecond
      rw [update_self, some.injEq] at isOther
      subst isOther
      exact ⟨rfl, own shared⟩
    · rw [update_of_ne isSecond] at isOther
      exact absurd shared.symm (fresh second first isOther)
  · rw [update_of_ne isFirst] at isOne
    by_cases isSecond : other = context
    · subst isSecond
      rw [update_self, some.injEq] at isOther
      subst isOther
      exact absurd shared (fresh first second isOne)
    · rw [update_of_ne isSecond] at isOther
      exact apart isOne isOther shared

omit [DecidableEq K] in
/-- A task that starts gets objects of its own. -/
theorem Synced.startTask (synced : Synced port s) {context : γ}
    (active : s.sys.active port.replCore = some context) {path argv table : Nat}
    {sys : SysState ι γ α K V} {objs : SysSpec α K V}
    (isPath : objs.lists .path = [port.emptyPath, port.libPath]) (isArgv : objs.lists .argv = [])
    (noModules : objs.modules = [])
    (started : s.sys.startTask port.emptyPath port.libPath port.replCore path argv table = some sys) :
    Synced port ⟨sys, Function.update s.spec context (some objs)⟩ := by
  simp only [SysState.startTask, active, bind_eq_bind, bind_some,
    bind_eq_some_iff, Prod.exists] at started
  obtain ⟨tables, dict, madeDict, arrays, list, madePath, arraysOne, listOne, appendedOne, arraysTwo,
    listTwo, appendedTwo, arraysLast, argvList, madeArgv, refreshed⟩ := started
  obtain ⟨freeTable, isTable, modules, frameTables⟩ := mpObjDictInit_eq_some port.keys madeDict
  obtain ⟨freePath, rfl, rfl⟩ := append_two madePath appendedOne appendedTwo
  obtain ⟨freeArgv, rfl, rfl⟩ := mpObjListInit_eq_some madeArgv
  have apart : argv ≠ path := by
    rintro rfl
    rw [update_self] at freeArgv
    cases freeArgv
  rw [update_of_ne apart] at freeArgv
  simp only [SysState.mpContextRefresh, active, bind_eq_bind, bind_some,
    update_self, some.injEq] at refreshed
  subst refreshed
  -- What the other contexts own is not at the new addresses.
  have elsewhere : ∀ {other vm}, s.sys.vm other = some vm →
      (∀ which, (vm.lists which).items ≠ path ∧ (vm.lists which).items ≠ argv) ∧
        vm.modules.table ≠ table := by
    intro other vm isVm
    obtain ⟨otherObjs, isSpec⟩ := synced.started other vm isVm
    obtain ⟨same, isSame, lists, there, isThere, _⟩ := synced.holds other otherObjs isSpec
    obtain rfl : same = vm := some.inj (isSame.symm.trans isVm)
    refine ⟨fun which => ?_, ?_⟩
    · obtain ⟨rest, here, _⟩ := lists which
      constructor
      · intro shared
        rw [shared, freePath] at here
        cases here
      · intro shared
        rw [shared, freeArgv] at here
        cases here
    · intro shared
      rw [shared, freeTable] at isThere
      cases isThere
  refine ⟨synced.oneCore, fun other isActive => ?_, fun other vm isVm => ?_,
    fun other otherObjs isOther => ?_, fun {one other oneVm otherVm which otherWhich} isOne isOther shared => ?_,
    fun {one other oneVm otherVm} isOne isOther shared => ?_⟩
  · obtain rfl : context = other := some.inj (active.symm.trans isActive)
    exact (update_self _ _ _).trans (update_self context _ s.sys.vm).symm
  · by_cases same : other = context
    · subst same
      exact ⟨objs, update_self _ _ _⟩
    · obtain ⟨otherObjs, isSpec⟩ :=
        synced.started other vm ((update_of_ne same _ _).symm.trans isVm)
      exact ⟨otherObjs, (update_of_ne same _ _).trans isSpec⟩
  · change Function.update s.spec context (some objs) other = some otherObjs at isOther
    by_cases same : other = context
    · subst same
      rw [update_self, some.injEq] at isOther
      subst isOther
      refine ⟨_, update_self _ _ _, fun which => ?_, ?_⟩
      · cases which with
        | path =>
          refine ⟨[none, none], ?_, by simp [isPath]⟩
          simp [update_of_ne apart.symm, isPath]
        | argv => exact ⟨List.replicate listMinAlloc none, by simp [isArgv], by simp [isArgv]⟩
      · rw [noModules]
        exact modules
    · rw [update_of_ne same] at isOther
      obtain ⟨otherVm, isVm, lists, there, isThere, rest⟩ := synced.holds other otherObjs isOther
      obtain ⟨apartLists, apartTable⟩ := elsewhere isVm
      refine ⟨otherVm, (update_of_ne same _ _).trans isVm, fun which => ?_, there,
        (frameTables _ apartTable).trans isThere, rest⟩
      obtain ⟨rest, here, len⟩ := lists which
      refine ⟨rest, ?_, len⟩
      exact (update_of_ne (apartLists which).2 _ _).trans
        ((update_of_ne (apartLists which).1 _ _).trans here)
  · refine apart_update (fun (vm : SysObjs) which => (vm.lists which).items) synced.apartLists ?_ ?_ _ _
      isOne isOther shared
    · intro first second same
      cases first <;> cases second
      · rfl
      · exact absurd same.symm apart
      · exact absurd same apart
      · rfl
    · intro other vm first second isVm
      cases second
      · exact ((elsewhere isVm).1 first).1
      · exact ((elsewhere isVm).1 first).2
  · refine (apart_update (fun (vm : SysObjs) (_ : Unit) => vm.modules.table)
      (fun isOne isOther shared => ⟨synced.apartTables isOne isOther shared, rfl⟩) (fun _ => rfl) ?_
      () () isOne isOther shared).1
    intro other vm _ _ isVm
    exact isTable ▸ (elsewhere isVm).2

/-- An event that meets the condition keeps the mirrors in step. -/
theorem Synced.next (lawful : port.keys.Lawful) (synced : Synced port s) {event : SysEvent ι γ α K V}
    (fits : SysFits port s event) {after : SysHistory ι γ α K V}
    (happens : s.next port event = some after) : Synced port after := by
  obtain ⟨core, keeps⟩ := fits
  cases event with
  | switchIn other context =>
    obtain rfl : other = port.replCore := core
    simp only [SysHistory.next, bind_eq_bind, bind_eq_some_iff, some.injEq] at happens
    obtain ⟨sys, switched, rfl⟩ := happens
    exact synced.switchIn switched
  | refresh other =>
    obtain rfl : other = port.replCore := core
    simp only [SysHistory.next, bind_eq_bind, bind_eq_some_iff, some.injEq] at happens
    obtain ⟨sys, refreshed, rfl⟩ := happens
    exact synced.refresh refreshed
  | start other path argv table =>
    obtain rfl : other = port.replCore := core
    simp only [SysHistory.next, bind_eq_bind, bind_eq_some_iff, some.injEq] at happens
    obtain ⟨context, active, sys, started, rfl⟩ := happens
    exact synced.startTask active rfl rfl rfl started
  | list other which made address =>
    obtain rfl : other = port.replCore := core
    simp only [SysHistory.next, bind_eq_bind, bind_eq_some_iff, some.injEq] at happens
    obtain ⟨context, active, objs, isSpec, sys, called, rfl⟩ := happens
    exact synced.callList active isSpec keeps called
  | modules other made address =>
    obtain rfl : other = port.replCore := core
    simp only [SysHistory.next, bind_eq_bind, bind_eq_some_iff, some.injEq,
      Prod.exists] at happens
    obtain ⟨context, active, objs, isSpec, sys, answer, called, rfl⟩ := happens
    exact synced.callModules lawful active isSpec keeps called

end Runs

/-- The port of the examples: one core, directories and modules are numbers. -/
def numberPort : SysPort Unit Nat Nat Nat := ⟨(), 0, 1, numberKeys, 0⟩

end MultiPython.Context
