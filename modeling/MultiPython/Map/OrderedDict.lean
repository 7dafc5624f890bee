import MultiPython.Map.Dict

/-!
# OrderedDict and the order of insertion

`Ordered` says that the map of an `OrderedDict` is an association list: its entries are the
first `used` slots, in the order of insertion, and the slots behind them are free. One lemma
for each function says what it does to that list. `dict_popitem` marks the first entry as
deleted without moving the others down, so it keeps the list only if there is no other
entry.
-/

namespace MultiPython.Map

open Logic List Option Function

variable {K V : Type} {keys : MpKeys K}

/-- The slot of an entry. -/
def filled (entry : K × V) : MpMapElem K V := ⟨.key entry.1, some entry.2⟩

/-- A slot without an entry or a value. -/
def IsFree (elem : MpMapElem K V) : Prop := MpMap.slotEntry elem = none ∧ elem.value = none

/-- The map of an `OrderedDict` with these entries, in the order of insertion. -/
structure Ordered (keys : MpKeys K) (map : MpMap K V) (spec : List (K × V)) : Prop where
  ordered : map.isOrdered = true
  notFixed : map.isFixed = false
  table : ∃ rest, map.table = spec.map filled ++ rest ∧ ∀ elem ∈ rest, IsFree elem
  sized : map.table.length = map.alloc
  used : map.used = spec.length
  once : spec.Pairwise (Assoc.Differ Prod.fst keys.equal)
  qstrs : map.allKeysAreQstrs = true → ∀ entry ∈ spec, keys.isQstr entry.1 = true

theorem Ordered.makeNew : Ordered keys (MpMap.orderedDictMakeNew : MpMap K V) [] :=
  ⟨rfl, rfl, ⟨[], rfl, by simp⟩, rfl, rfl, .nil, by simp⟩

/-! ## Searching -/

section Searching

variable [DecidableEq K] {onlyPtrs : Bool} {index : K}

/-- The search of the ordered array finds the entry for a key. -/
theorem orderedFind_spec (lawful : keys.Lawful) (rest : List (MpMapElem K V))
    (early late : List (K × V)) (ptrs : onlyPtrs = true → (∀ entry ∈ late, keys.isQstr entry.1 = true) ∧
      (keys.isQstr index = true ∨ keys.isStr index = false)) :
    ((∀ entry ∈ late, keys.equal entry.1 index = false) ∧
        MpMap.orderedFind keys onlyPtrs index ((early ++ late).map filled ++ rest) late.length
          early.length = some .null) ∨
      ∃ before entry after, late = before ++ entry :: after ∧ keys.equal entry.1 index = true ∧
        MpMap.orderedFind keys onlyPtrs index ((early ++ late).map filled ++ rest) late.length
          early.length = some (.slot (early.length + before.length)) := by
  induction late generalizing early with
  | nil => exact .inl ⟨by simp, rfl⟩
  | cons entry late ih =>
    have here : ((early ++ entry :: late).map filled ++ rest)[early.length]? = some (filled entry) := by
      simp
    have test : (entry.1 = index ∨ (onlyPtrs = false ∧ keys.equal entry.1 index = true)) ↔
        keys.equal entry.1 index = true := by
      have same : (decide (entry.1 = index) || (!onlyPtrs && keys.equal entry.1 index)) =
          keys.equal entry.1 index :=
        lawful.ptrs_enough fun only => ⟨(ptrs only).1 entry mem_cons_self, (ptrs only).2⟩
      refine Iff.trans ?_ (Bool.eq_iff_iff.mp same)
      simp
    have unfolded : MpMap.orderedFind keys onlyPtrs index ((early ++ entry :: late).map filled ++ rest)
        (late.length + 1) early.length =
          if keys.equal entry.1 index = true then some (.slot early.length)
          else MpMap.orderedFind keys onlyPtrs index ((early ++ entry :: late).map filled ++ rest)
            late.length (early.length + 1) := by
      rw [MpMap.orderedFind, here]
      simp only [filled, bind_eq_bind, bind_some]
      exact if_congr test rfl rfl
    rw [length_cons, unfolded]
    cases same : keys.equal entry.1 index with
    | true => exact .inr ⟨[], entry, late, rfl, same, by simp⟩
    | false =>
      have moved : early ++ entry :: late = (early ++ [entry]) ++ late := by simp
      have length : early.length + 1 = (early ++ [entry]).length := by simp
      rw [moved, length, if_neg (by simp)]
      rcases ih (early ++ [entry]) fun only =>
          ⟨fun other member => (ptrs only).1 other (mem_cons_of_mem _ member), (ptrs only).2⟩
        with ⟨absent, ran⟩ | ⟨before, found, after, rfl, isFound, ran⟩
      · refine .inl ⟨fun other member => ?_, ran⟩
        rcases mem_cons.mp member with rfl | there
        · exact same
        · exact absent other there
      · refine .inr ⟨entry :: before, found, after, rfl, isFound, ?_⟩
        rw [ran]
        simp only [length_append, length_cons, length_nil]
        congr 2
        omega

variable {map : MpMap K V} {spec : List (K × V)} (heap : Nat → Bool)

/-- What `mp_map_lookup` does, for every kind. -/
theorem Ordered.lookup_cases (lawful : keys.Lawful) (holds : Ordered keys map spec) (index : K)
    (kind : MpMapLookupKind) :
    ((∀ entry ∈ spec, keys.equal entry.1 index = false) ∧
        map.mpMapLookup keys heap index kind =
          if kind ≠ .addIfNotFound then some (map, .null)
          else if map.used = map.alloc then
            if heap (map.alloc + 4) then
              MpMap.orderedAppend keys
                { map with
                  alloc := map.alloc + 4
                  table := map.table.take map.used ++
                    List.replicate (map.alloc + 4 - map.used) ⟨.null, none⟩ } index
            else some ({ map with alloc := map.alloc + 4 }, .raised)
          else map.orderedAppend keys index) ∨
      ∃ before entry after, spec = before ++ entry :: after ∧ keys.equal entry.1 index = true ∧
        map.mpMapLookup keys heap index kind =
          if kind = .removeIfFound then
            some (map.orderedRemove before.length (some entry.2), .slot (map.used - 1))
          else some (map, .slot before.length) := by
  by_cases shortcut : map.allKeysAreQstrs = true ∧ keys.isQstr index = false ∧
      keys.isStr index = false ∧ kind ≠ .addIfNotFound
  · refine .inl ⟨fun entry member => lawful.not_equal_of_not_str
      (holds.qstrs shortcut.1 entry member) shortcut.2.1 shortcut.2.2.1, ?_⟩
    rw [MpMap.mpMapLookup, MpMap.mpMapLookupNested, if_pos shortcut, if_pos shortcut.2.2.2]
  obtain ⟨rest, table, _⟩ := holds.table
  have unfolded : map.mpMapLookup keys heap index kind = map.mpMapLookupOrdered keys heap
      (map.allKeysAreQstrs && (keys.isQstr index || !keys.isStr index)) index kind := by
    rw [MpMap.mpMapLookup, MpMap.mpMapLookupNested, if_neg shortcut]
    simp [holds.ordered]
  have ptrs : (map.allKeysAreQstrs && (keys.isQstr index || !keys.isStr index)) = true →
      (∀ entry ∈ spec, keys.isQstr entry.1 = true) ∧
        (keys.isQstr index = true ∨ keys.isStr index = false) := by
    intro only
    obtain ⟨isSet, isKind⟩ : map.allKeysAreQstrs = true ∧
        (keys.isQstr index = true ∨ keys.isStr index = false) := by simpa using only
    exact ⟨holds.qstrs isSet, isKind⟩
  have search := orderedFind_spec lawful rest [] spec ptrs
  rw [nil_append, ← table, ← holds.used, length_nil] at search
  rw [unfolded]
  rcases search with ⟨absent, ran⟩ | ⟨before, entry, after, split, same, ran⟩
  · refine .inl ⟨absent, ?_⟩
    simp [MpMap.mpMapLookupOrdered, ran]
  · refine .inr ⟨before, entry, after, split, same, ?_⟩
    have here : map.table[before.length]? = some (filled entry) := by
      rw [table, split]
      simp
    simp [MpMap.mpMapLookupOrdered, ran, here, filled]

end Searching

/-! ## Changing -/

section Changing

variable {map : MpMap K V} {spec : List (K × V)} {before after : List (K × V)}

theorem Ordered.setValue {entry : K × V} (holds : Ordered keys map (before ++ entry :: after))
    (value : V) :
    Ordered keys (map.setValue before.length (some value)) (before ++ (entry.1, value) :: after) := by
  obtain ⟨rest, table, free⟩ := holds.table
  have written : (map.setValue before.length (some value)).table =
      (before ++ (entry.1, value) :: after).map filled ++ rest := by
    have here : map.table[before.length]? = some (filled entry) := by
      rw [table]
      simp
    rw [MpMap.setValue, List.modify_eq_set_getElem?, here, table]
    simp [filled]
  refine ⟨holds.ordered, holds.notFixed, ⟨rest, written, free⟩,
    by simpa [MpMap.setValue] using holds.sized, ?_, ?_, ?_⟩
  · have used := holds.used
    simpa [MpMap.setValue] using used
  · have once := holds.once
    simp only [pairwise_append, pairwise_cons, mem_cons] at once ⊢
    refine ⟨once.1, ⟨once.2.1.1, once.2.1.2⟩, fun one oneMember other member => ?_⟩
    rcases member with rfl | there
    · exact once.2.2 one oneMember entry (.inl rfl)
    · exact once.2.2 one oneMember other (.inr there)
  · intro isSet other member
    have qstrs := holds.qstrs isSet
    rcases mem_append.mp member with there | there
    · exact qstrs other (mem_append_left _ there)
    rcases mem_cons.mp there with rfl | there
    · exact qstrs entry (by simp)
    · exact qstrs other (mem_append_right _ (mem_cons_of_mem _ there))

/-- Moving the rest of the array down over an entry, and clearing the slot after the end. -/
theorem Ordered.remove {entry : K × V} (holds : Ordered keys map (before ++ entry :: after)) :
    (map.orderedRemove before.length (some entry.2)).table[map.used - 1]? =
        some ⟨.null, some entry.2⟩ ∧
      Ordered keys ((map.orderedRemove before.length (some entry.2)).setValue (map.used - 1) none)
        (before ++ after) := by
  obtain ⟨rest, table, free⟩ := holds.table
  have used : map.used = before.length + (after.length + 1) := by
    rw [holds.used]
    simp
  have moved : (map.orderedRemove before.length (some entry.2)).table =
      (before ++ after).map filled ++ ⟨.null, some entry.2⟩ :: rest := by
    simp only [MpMap.orderedRemove, table, used]
    have early : (List.map filled (before ++ entry :: after) ++ rest).take before.length =
        before.map filled := by simp
    have late : (List.map filled (before ++ entry :: after) ++ rest).drop
        (before.length + (after.length + 1)) = rest := by
      have length : (List.map filled (before ++ entry :: after)).length =
          before.length + (after.length + 1) := by simp
      rw [← length, drop_left]
    have whole : (List.map filled (before ++ entry :: after) ++ rest).take
        (before.length + (after.length + 1)) = List.map filled (before ++ entry :: after) := by
      have length : (List.map filled (before ++ entry :: after)).length =
          before.length + (after.length + 1) := by simp
      rw [← length, take_left]
    have middle : (List.map filled (before ++ entry :: after)).drop (before.length + 1) =
        after.map filled := by
      rw [← map_drop]
      simp [drop_append]
    rw [early, late, whole, middle, map_append]
  have last : map.used - 1 = ((before ++ after).map filled).length := by
    simp [used]
  have here : (map.orderedRemove before.length (some entry.2)).table[map.used - 1]? =
      some ⟨.null, some entry.2⟩ := by
    rw [moved, last]
    simp
  have sub : (before ++ after).Sublist (before ++ entry :: after) :=
    (sublist_cons_self entry after).append_left before
  refine ⟨here, holds.ordered, holds.notFixed, ⟨⟨.null, none⟩ :: rest, ?_, ?_⟩, ?_, ?_,
    holds.once.sublist sub, fun isSet other member => holds.qstrs isSet other (sub.subset member)⟩
  · rw [MpMap.setValue, List.modify_eq_set_getElem?, here, moved, last]
    simp
  · intro elem member
    rcases mem_cons.mp member with rfl | there
    · exact ⟨rfl, rfl⟩
    · exact free elem there
  · have sized := holds.sized
    rw [table] at sized
    simp only [MpMap.setValue, length_modify, moved]
    simp only [length_append, length_map, length_cons] at sized ⊢
    change _ = map.alloc
    omega
  · change map.used - 1 = _
    simp [used]

/-- A new key after the last entry, and its value. -/
theorem Ordered.append [DecidableEq K] (holds : Ordered keys map spec)
    {index : K} (absent : ∀ entry ∈ spec, keys.equal entry.1 index = false)
    (room : map.used < map.alloc) :
    ∃ after, map.orderedAppend keys index = some (after, .slot map.used) ∧
      after.table[map.used]? = some ⟨.key index, none⟩ ∧
      ∀ value, Ordered keys (after.setValue map.used (some value)) (spec ++ [(index, value)]) := by
  obtain ⟨rest, table, free⟩ := holds.table
  have sized := holds.sized
  rw [table] at sized
  simp only [length_append, length_map] at sized
  obtain ⟨elem, others, rfl⟩ : ∃ elem others, rest = elem :: others := by
    cases rest with
    | nil =>
      have used := holds.used
      simp only [length_nil] at sized
      omega
    | cons elem others => exact ⟨elem, others, rfl⟩
  have here : map.table[map.used]? = some elem := by
    rw [table, holds.used]
    simp
  have noValue : elem.value = none := (free elem mem_cons_self).2
  let after : MpMap K V :=
    { map with
      allKeysAreQstrs := map.allKeysAreQstrs && keys.isQstr index
      used := map.used + 1
      table := map.table.set map.used { elem with key := .key index } }
  have written : after.table = spec.map filled ++ ⟨.key index, none⟩ :: others := by
    change map.table.set map.used { elem with key := .key index } = _
    rw [table, holds.used, noValue]
    simp
  have slot : after.table[map.used]? = some ⟨.key index, none⟩ := by
    rw [written, holds.used]
    simp
  refine ⟨after, by simp [MpMap.orderedAppend, here, after], slot, fun value => ?_⟩
  refine ⟨holds.ordered, holds.notFixed, ⟨others, ?_, fun other member =>
    free other (mem_cons_of_mem _ member)⟩, ?_, ?_, ?_, ?_⟩
  · rw [MpMap.setValue, List.modify_eq_set_getElem?, slot, written, holds.used]
    simp [filled]
  · simp only [MpMap.setValue, length_modify, written]
    simp only [length_append, length_map, length_cons] at sized ⊢
    exact sized
  · change map.used + 1 = _
    simp [holds.used]
  · rw [pairwise_append]
    refine ⟨holds.once, pairwise_singleton _ _, fun one member other isNew => ?_⟩
    rw [mem_singleton.mp isNew]
    exact absent one member
  · intro isSet other member
    obtain ⟨wasSet, isQstr⟩ : map.allKeysAreQstrs = true ∧ keys.isQstr index = true := by
      simpa [MpMap.setValue, after] using isSet
    rcases mem_append.mp member with there | isNew
    · exact holds.qstrs wasSet other there
    · rw [mem_singleton.mp isNew]
      exact isQstr

end Changing

/-! ## Iterating -/

/-- The next filled slot from a position on. -/
theorem dictIterFrom_spec (table : List (MpMapElem K V)) {left pos : Nat}
    (whole : pos + left = table.length) :
    (MpMap.dictIterFrom table left pos = some none ∧
        (table.drop pos).filterMap MpMap.slotEntry = []) ∨
      ∃ found entry, MpMap.dictIterFrom table left pos = some (some found) ∧ pos ≤ found ∧
        found < table.length ∧ (table[found]? >>= MpMap.slotEntry) = some entry ∧
        (table.drop pos).filterMap MpMap.slotEntry =
          entry :: (table.drop (found + 1)).filterMap MpMap.slotEntry := by
  induction left generalizing pos with
  | zero =>
    refine .inl ⟨rfl, ?_⟩
    rw [drop_eq_nil_of_le (by omega)]
    rfl
  | succ left ih =>
    have inside : pos < table.length := by omega
    have here : table[pos]? = some table[pos] := List.getElem?_eq_getElem inside
    rw [drop_eq_getElem_cons inside]
    cases entry : MpMap.slotEntry table[pos] with
    | some found =>
      refine .inr ⟨pos, found, ?_, le_refl pos, inside, ?_, ?_⟩
      · simp [MpMap.dictIterFrom, here, entry]
      · simp [here, entry]
      · rw [filterMap_cons_some entry]
    | none =>
      rw [filterMap_cons_none entry]
      have unfolded : MpMap.dictIterFrom table (left + 1) pos =
          MpMap.dictIterFrom table left (pos + 1) := by
        simp [MpMap.dictIterFrom, here, entry]
      rw [unfolded]
      have later : pos + 1 + left = table.length := by omega
      rcases ih later with nothing |
        ⟨found, entry, ran, after, within, isEntry, split⟩
      · exact .inl nothing
      · exact .inr ⟨found, entry, ran, by omega, within, isEntry, split⟩

theorem dictItems_eq {map : MpMap K V} (sized : map.table.length = map.alloc) :
    map.dictItems = some (map.table.filterMap MpMap.slotEntry) := by
  have fromCur : ∀ fuel cur, cur ≤ map.table.length → map.table.length - cur < fuel →
      map.dictItemsFrom fuel cur = some ((map.table.drop cur).filterMap MpMap.slotEntry) := by
    intro fuel
    induction fuel with
    | zero => omega
    | succ fuel ih =>
      intro cur within enough
      have rest : cur + (map.alloc - cur) = map.table.length := by omega
      rcases dictIterFrom_spec map.table rest with
        ⟨ran, nothing⟩ | ⟨found, entry, ran, after, inside, isEntry, split⟩
      · simp [MpMap.dictItemsFrom, MpMap.dictIterNext, ran, nothing]
      · have later := ih (found + 1) (by omega) (by omega)
        rw [split]
        simp only [MpMap.dictItemsFrom, MpMap.dictIterNext, ran, bind_eq_bind,
          bind_some, later]
        rw [bind_eq_bind] at isEntry
        rw [isEntry]
        rfl
  have whole := fromCur (map.alloc + 1) 0 (by omega) (by omega)
  rwa [drop_zero] at whole

theorem Ordered.entries_eq {map : MpMap K V} {spec : List (K × V)} (holds : Ordered keys map spec) :
    map.table.filterMap MpMap.slotEntry = spec.map fun entry => (entry.1, some entry.2) := by
  obtain ⟨rest, table, free⟩ := holds.table
  have nothing : rest.filterMap MpMap.slotEntry = [] :=
    filterMap_eq_nil_iff.mpr fun elem member => (free elem member).1
  rw [table, filterMap_append, nothing, append_nil, filterMap_map]
  exact congrFun filterMap_eq_map spec

/-! ## One function -/

/-- The heap has room for a larger array if the key is new and the array is full. -/
def StoreFits (keys : MpKeys K) (heap : Nat → Bool) (map : MpMap K V) (index : K) : Prop :=
  map.used = map.alloc →
    (∀ entry ∈ map.table.filterMap MpMap.slotEntry, keys.equal entry.1 index = false) →
    heap (map.alloc + 4) = true

instance (heap : Nat → Bool) (map : MpMap K V) (index : K) : Decidable (StoreFits keys heap map index) :=
  inferInstanceAs (Decidable (_ → _ → _))

/-- Store a value in an association list. -/
def specStore (keys : MpKeys K) (spec : List (K × V)) (key : K) (value : V) : List (K × V) :=
  Assoc.insert Prod.fst keys.equal (fun entry => (entry.1, value)) (key, value) spec key

section Functions

variable [DecidableEq K] {heap : Nat → Bool} {map : MpMap K V} {spec : List (K × V)} {index : K}

/-- Adding a key that is not there. -/
theorem Ordered.lookup_add (lawful : keys.Lawful) (holds : Ordered keys map spec)
    (fits : StoreFits keys heap map index) :
    ((∀ entry ∈ spec, keys.equal entry.1 index = false) ∧
        ∃ after, map.mpMapLookup keys heap index .addIfNotFound = some (after, .slot map.used) ∧
          after.table[map.used]? = some ⟨.key index, none⟩ ∧
          ∀ value, Ordered keys (after.setValue map.used (some value)) (spec ++ [(index, value)])) ∨
      ∃ before entry after, spec = before ++ entry :: after ∧ keys.equal entry.1 index = true ∧
        map.mpMapLookup keys heap index .addIfNotFound = some (map, .slot before.length) := by
  rcases holds.lookup_cases heap lawful index .addIfNotFound with
    ⟨absent, ran⟩ | ⟨before, entry, after, split, same, ran⟩
  · refine .inl ⟨absent, ?_⟩
    obtain ⟨rest, table, free⟩ := holds.table
    have sized := holds.sized
    rw [table] at sized
    simp only [length_append, length_map] at sized
    by_cases full : map.used = map.alloc
    · have room : heap (map.alloc + 4) = true := by
        refine fits full fun entry member => ?_
        rw [holds.entries_eq] at member
        obtain ⟨original, there, rfl⟩ := List.mem_map.mp member
        exact absent original there
      let larger : MpMap K V :=
        { map with
          alloc := map.alloc + 4
          table := map.table.take map.used ++ List.replicate (map.alloc + 4 - map.used) ⟨.null, none⟩ }
      have largerOrdered : Ordered keys larger spec := by
        have kept : map.table.take map.used = spec.map filled := by
          rw [table, holds.used]
          have length : (spec.map (filled (K := K) (V := V))).length = spec.length := by simp
          rw [← length, take_left]
        refine ⟨holds.ordered, holds.notFixed, ⟨_, congrArg (· ++ _) kept, ?_⟩, ?_, holds.used,
          holds.once, holds.qstrs⟩
        · intro elem member
          obtain ⟨_, rfl⟩ := mem_replicate.mp member
          exact ⟨rfl, rfl⟩
        · change (map.table.take map.used ++ List.replicate _ _).length = map.alloc + 4
          rw [kept]
          simp only [length_append, length_map, length_replicate]
          have used := holds.used
          omega
      have inside : larger.used < larger.alloc := by
        change map.used < map.alloc + 4
        omega
      obtain ⟨after, appended, spec⟩ := largerOrdered.append absent inside
      refine ⟨after, ?_, spec⟩
      rw [ran, if_neg (by simp), if_pos full, if_pos room]
      exact appended
    · have used := holds.used
      obtain ⟨after, appended, spec⟩ := holds.append absent (by omega)
      exact ⟨after, by rw [ran, if_neg (by simp), if_neg full, appended], spec⟩
  · exact .inr ⟨before, entry, after, split, same, by simpa using ran⟩

theorem Ordered.storeValue (lawful : keys.Lawful) (holds : Ordered keys map spec)
    (fits : StoreFits keys heap map index) (value : V) :
    ∃ after, map.storeValue keys heap index (some value) = some (after, .done) ∧
      Ordered keys after (specStore keys spec index value) := by
  rcases holds.lookup_add lawful fits with
    ⟨absent, after, ran, _, ordered⟩ | ⟨before, entry, after, rfl, same, ran⟩
  · refine ⟨_, by simp only [MpMap.storeValue, ran]; rfl, ?_⟩
    rw [specStore, Assoc.insert_of_absent absent]
    exact ordered value
  · refine ⟨_, by simp only [MpMap.storeValue, ran]; rfl, ?_⟩
    rw [specStore, Assoc.insert_middle lawful.congruent holds.once same]
    exact holds.setValue value

variable (heap) in
/-- Removing a key. -/
theorem Ordered.getHelper_remove (lawful : keys.Lawful) (holds : Ordered keys map spec)
    (noneObject : V) (index : K) (fallback : Option V) :
    (Assoc.find Prod.fst keys.equal spec index = none ∧
        map.dictGetHelper keys heap noneObject index fallback .removeIfFound =
          some (map, match fallback with
            | none => .raised .keyError
            | some value => .value value)) ∨
      ∃ entry after, Assoc.find Prod.fst keys.equal spec index = some entry ∧
        map.dictGetHelper keys heap noneObject index fallback .removeIfFound =
          some (after, .value entry.2) ∧
        Ordered keys after (Assoc.erase Prod.fst keys.equal spec index) := by
  rcases holds.lookup_cases heap lawful index .removeIfFound with
    ⟨absent, ran⟩ | ⟨before, entry, after, rfl, same, ran⟩
  · refine Or.inl ⟨Assoc.find_eq_none.mpr absent, ?_⟩
    cases fallback <;> simp [MpMap.dictGetHelper, holds.notFixed, ran]
  · obtain ⟨here, removed⟩ := holds.remove
    refine Or.inr ⟨entry,
      (map.orderedRemove before.length (some entry.2)).setValue (map.used - 1) none,
      Assoc.find_middle lawful.congruent holds.once same, ?_, ?_⟩
    · simp [MpMap.dictGetHelper, holds.notFixed, ran, here]
    · rw [Assoc.erase_middle lawful.congruent holds.once same]
      exact removed

theorem Ordered.setdefault (lawful : keys.Lawful) (holds : Ordered keys map spec) (noneObject : V)
    (fits : StoreFits keys heap map index) (fallback : Option V) :
    (Assoc.find Prod.fst keys.equal spec index = none ∧
        ∃ after, map.dictSetdefault keys heap noneObject index fallback =
            some (after, .value (fallback.getD noneObject)) ∧
          Ordered keys after (spec ++ [(index, fallback.getD noneObject)])) ∨
      ∃ entry, Assoc.find Prod.fst keys.equal spec index = some entry ∧
        map.dictSetdefault keys heap noneObject index fallback = some (map, .value entry.2) := by
  rcases holds.lookup_add lawful fits with
    ⟨absent, after, ran, here, ordered⟩ | ⟨before, entry, after, rfl, same, ran⟩
  · refine .inl ⟨Assoc.find_eq_none.mpr absent, _, ?_, ordered _⟩
    simp [MpMap.dictSetdefault, MpMap.dictGetHelper, holds.notFixed, ran, here]
  · refine .inr ⟨entry, Assoc.find_middle lawful.congruent holds.once same, ?_⟩
    obtain ⟨rest, table, _⟩ := holds.table
    have here : map.table[before.length]? = some (filled entry) := by
      rw [table]
      simp
    simp [MpMap.dictSetdefault, MpMap.dictGetHelper, holds.notFixed, ran, here, filled]

omit [DecidableEq K] in
/-- `dict_popitem` of a dictionary with at most one entry. -/
theorem Ordered.popitem (holds : Ordered keys map spec) (noneObject : V) (few : map.used ≤ 1)
    (room : map.used = 1 → heap 2 = true) :
    (spec = [] ∧ map.dictPopitem heap noneObject = some (map, .raised .keyError)) ∨
      ∃ entry after, spec = [entry] ∧
        map.dictPopitem heap noneObject = some (after, .item entry.1 entry.2) ∧
        Ordered keys after [] := by
  have whole : 0 + (map.alloc - 0) = map.table.length := by
    have sized := holds.sized
    omega
  have used := holds.used
  obtain ⟨rest, table, free⟩ := holds.table
  cases spec with
  | nil =>
    refine Or.inl ⟨rfl, ?_⟩
    rcases dictIterFrom_spec map.table whole with ⟨ran, _⟩ | ⟨_, _, _, _, _, _, split⟩
    · have ended : map.dictIterNext 0 = some none := ran
      simp [MpMap.dictPopitem, holds.notFixed, ended]
    · rw [drop_zero, holds.entries_eq] at split
      cases split
  | cons entry others =>
    rw [used, length_cons] at few
    obtain rfl := eq_nil_of_length_eq_zero (show others.length = 0 by omega)
    have one : map.used = 1 := used
    obtain ⟨left, isLeft⟩ : ∃ left, map.alloc = left + 1 := by
      have sized := holds.sized
      rw [table] at sized
      exact ⟨rest.length, by simpa [Nat.add_comm] using sized.symm⟩
    have here : map.table[0]? = some (filled entry) := by
      rw [table]
      rfl
    have first : map.dictIterNext 0 = some (some 0) := by
      simp [MpMap.dictIterNext, isLeft, MpMap.dictIterFrom, here, filled, MpMap.slotEntry]
    refine Or.inr ⟨entry, { map with
      used := map.used - 1
      table := map.table.set 0 ⟨.sentinel, none⟩ }, rfl, ?_, ?_⟩
    · simp [MpMap.dictPopitem, holds.notFixed, first, here, filled, MpMap.slotEntry, room one]
    · refine ⟨holds.ordered, holds.notFixed, ⟨⟨.sentinel, none⟩ :: rest, ?_, ?_⟩, ?_, ?_, .nil,
        by simp⟩
      · change map.table.set 0 _ = _
        rw [table]
        rfl
      · intro elem member
        rcases mem_cons.mp member with rfl | there
        · exact ⟨rfl, rfl⟩
        · exact free elem there
      · change (map.table.set 0 _).length = map.alloc
        rw [length_set]
        exact holds.sized
      · change map.used - 1 = 0
        omega

end Functions

/-! ## Updating -/

/-- The heap has room for every item that is stored. -/
def UpdateFits [DecidableEq K] (keys : MpKeys K) (heap : Nat → Bool) :
    List (Option (K × Option V)) → MpMap K V → Prop
  | [], _ => True
  | none :: _, _ => True
  | some (key, value) :: rest, map => StoreFits keys heap map key ∧
      match map.storeValue keys heap key value with
      | some (after, .done) => UpdateFits keys heap rest after
      | _ => True

instance decidableUpdateFits [DecidableEq K] (heap : Nat → Bool) :
    (items : List (Option (K × Option V))) → (map : MpMap K V) → Decidable (UpdateFits keys heap items map)
  | [], _ => .isTrue trivial
  | none :: _, _ => .isTrue trivial
  | some (key, value) :: rest, map =>
    have later : Decidable (match map.storeValue keys heap key value with
        | some (after, .done) => UpdateFits keys heap rest after
        | _ => True) := by
      split
      · exact decidableUpdateFits heap rest _
      · exact .isTrue trivial
    inferInstanceAs (Decidable (_ ∧ _))

/-- Store the items of an update, up to the first one that is not a pair. -/
def specUpdate (keys : MpKeys K) : List (Option (K × V)) → List (K × V) →
    List (K × V) × DictAnswer K V
  | [], spec => (spec, .done)
  | none :: _, spec => (spec, .raised .valueError)
  | some (key, value) :: rest, spec => specUpdate keys rest (specStore keys spec key value)

theorem specUpdate_answer (items : List (Option (K × V))) (spec : List (K × V)) :
    (specUpdate keys items spec).2.outOfMemory = false := by
  induction items generalizing spec with
  | nil => rfl
  | cons item rest ih =>
    cases item with
    | none => rfl
    | some pair => exact ih _

/-- Items of which the values are objects. -/
def rawItems (items : List (Option (K × V))) : List (Option (K × Option V)) :=
  items.map (·.map fun pair => (pair.1, some pair.2))

section Updating

variable [DecidableEq K] {heap : Nat → Bool} {map : MpMap K V} {spec : List (K × V)}

theorem dictUpdateItems_append (items more : List (Option (K × Option V))) (map : MpMap K V) :
    MpMap.dictUpdateItems keys heap (items ++ more) map =
      (MpMap.dictUpdateItems keys heap items map).bind fun result =>
        match result with
        | (map, .raised error) => some (map, .raised error)
        | (map, _) => MpMap.dictUpdateItems keys heap more map := by
  induction items generalizing map with
  | nil => rfl
  | cons item rest ih =>
    cases item with
    | none => rfl
    | some pair =>
      obtain ⟨key, value⟩ := pair
      simp only [cons_append, MpMap.dictUpdateItems, bind_eq_bind, bind_assoc]
      refine congrArg _ (funext fun result => ?_)
      obtain ⟨stored, answer⟩ := result
      cases answer with
      | raised error => rfl
      | done => exact ih stored
      | value value => exact ih stored
      | item key value => exact ih stored

theorem Ordered.dictUpdate_eq (holds : Ordered keys map spec)
    (items kwargs : List (Option (K × Option V))) :
    map.dictUpdate keys heap items kwargs =
      MpMap.dictUpdateItems keys heap (items ++ kwargs) map := by
  rw [MpMap.dictUpdate, holds.notFixed, dictUpdateItems_append]
  rfl

theorem Ordered.updateItems (lawful : keys.Lawful) (items : List (Option (K × V)))
    (holds : Ordered keys map spec) (fits : UpdateFits keys heap (rawItems items) map) :
    ∃ after, MpMap.dictUpdateItems keys heap (rawItems items) map =
        some (after, (specUpdate keys items spec).2) ∧
      Ordered keys after (specUpdate keys items spec).1 := by
  induction items generalizing map spec with
  | nil => exact ⟨map, rfl, holds⟩
  | cons item rest ih =>
    cases item with
    | none => exact ⟨map, rfl, holds⟩
    | some pair =>
      obtain ⟨key, value⟩ := pair
      obtain ⟨storeFits, restFits⟩ := fits
      obtain ⟨stored, ran, ordered⟩ := holds.storeValue lawful storeFits value
      simp only [ran] at restFits
      obtain ⟨after, ranRest, spec⟩ := ih ordered restFits
      refine ⟨after, ?_, spec⟩
      simp only [rawItems, map_cons, map_some, MpMap.dictUpdateItems, ran]
      exact ranRest

end Updating

/-! ## Every run -/

section Runs

variable {ι : Type} [DecidableEq ι]

/-- The pairs that `dict_update` stores. -/
def specItems (spec : ι → List (K × V)) (self : ι) : DictSource ι K V → List (Option (K × V))
  | .nothing => []
  | .dict other => if other = self then [] else (spec other).map some
  | .pairs items => items

/-- What the functions do to association lists in the order of insertion. -/
def specDictCall (keys : MpKeys K) (noneObject : V) (spec : ι → List (K × V)) :
    DictCall ι K V → (ι → List (K × V)) × DictAnswer K V
  | .store _ self key value =>
    (Function.update spec self (specStore keys (spec self) key value), .done)
  | .delete _ self key =>
    match Assoc.find Prod.fst keys.equal (spec self) key with
    | none => (spec, .raised .keyError)
    | some _ => (Function.update spec self (Assoc.erase Prod.fst keys.equal (spec self) key), .done)
  | .pop _ self key fallback =>
    match Assoc.find Prod.fst keys.equal (spec self) key, fallback with
    | none, none => (spec, .raised .keyError)
    | none, some value => (spec, .value value)
    | some entry, _ =>
      (Function.update spec self (Assoc.erase Prod.fst keys.equal (spec self) key), .value entry.2)
  | .popitem _ self =>
    match spec self with
    | [] => (spec, .raised .keyError)
    | entry :: rest => (Function.update spec self rest, .item entry.1 entry.2)
  | .setdefault _ self key fallback =>
    match Assoc.find Prod.fst keys.equal (spec self) key with
    | none =>
      (Function.update spec self (spec self ++ [(key, fallback.getD noneObject)]),
        .value (fallback.getD noneObject))
    | some entry => (spec, .value entry.2)
  | .update _ self source kwargs =>
    let result := specUpdate keys (specItems spec self source ++ kwargs.map some) (spec self)
    (Function.update spec self result.1, result.2)
  | .copy _ self into => (Function.update spec into (spec self), .done)
  | .clear self => (Function.update spec self [], .done)

/-- The heap has room for a larger array where one is needed, and `dict_popitem` is called
only for a dictionary with no more than one entry, with room for its result. -/
def Fits [DecidableEq K] (keys : MpKeys K) (dicts : ι → MpMap K V) : DictCall ι K V → Prop
  | .store heap self key _ | .setdefault heap self key _ => StoreFits keys heap (dicts self) key
  | .update heap self source kwargs =>
    match source.items dicts self with
    | some items => UpdateFits keys heap (items ++ kwargsItems kwargs) (dicts self)
    | none => True
  | .popitem heap self => (dicts self).used ≤ 1 ∧ ((dicts self).used = 1 → heap 2 = true)
  | .delete _ _ _ | .pop _ _ _ _ | .copy _ _ _ | .clear _ => True

instance [DecidableEq K] (dicts : ι → MpMap K V) :
    (made : DictCall ι K V) → Decidable (Fits keys dicts made)
  | .store heap self key _ | .setdefault heap self key _ =>
    inferInstanceAs (Decidable (StoreFits keys heap (dicts self) key))
  | .update heap self source kwargs =>
    have stored : Decidable (match source.items dicts self with
        | some items => UpdateFits keys heap (items ++ kwargsItems kwargs) (dicts self)
        | none => True) := by
      split
      · infer_instance
      · exact .isTrue trivial
    stored
  | .popitem heap self =>
    inferInstanceAs (Decidable ((dicts self).used ≤ 1 ∧ ((dicts self).used = 1 → heap 2 = true)))
  | .delete _ _ _ | .pop _ _ _ _ | .copy _ _ _ | .clear _ => .isTrue trivial

/-- Dictionaries beside the association lists that they should be. -/
structure DictHistory (ι K V : Type) where
  dicts : ι → MpMap K V
  spec : ι → List (K × V)

/-- New dictionaries. -/
def DictHistory.initial : DictHistory ι K V := ⟨fun _ => MpMap.orderedDictMakeNew, fun _ => []⟩

/-- One call on both. An exception for want of memory leaves the association lists alone. -/
def DictHistory.next [DecidableEq K] (keys : MpKeys K) (noneObject : V) (s : DictHistory ι K V)
    (made : DictCall ι K V) : Option (DictHistory ι K V) :=
  (dictCall keys noneObject s.dicts made).map fun result =>
    ⟨result.1, if result.2.outOfMemory then s.spec
      else (specDictCall keys noneObject s.spec made).1⟩

/-- Every dictionary is its association list: iterating yields its entries in order, each key
once, and `used` is its length. Every further call that fits answers as the association lists
do; a copy may also fail for want of memory, and then changes nothing. -/
structure DictsRefine [DecidableEq K] (keys : MpKeys K) (noneObject : V) (s : DictHistory ι K V) :
    Prop where
  items : ∀ self, (s.dicts self).dictItems = some ((s.spec self).map fun entry => (entry.1, some entry.2))
  once : ∀ self, (s.spec self).Pairwise fun one other => keys.equal one.1 other.1 = false
  length : ∀ self, (s.dicts self).used = (s.spec self).length
  answers : ∀ made, Fits keys s.dicts made → ∃ after answer,
    dictCall keys noneObject s.dicts made = some (after, answer) ∧
      (answer = (specDictCall keys noneObject s.spec made).2 ∨
        answer.outOfMemory = true ∧ after = s.dicts)

variable [DecidableEq K] {noneObject : V} {dicts : ι → MpMap K V} {spec : ι → List (K × V)}

omit [DecidableEq K] in
/-- One dictionary changes. -/
theorem ordered_update (holds : ∀ self, Ordered keys (dicts self) (spec self)) {self : ι}
    {map : MpMap K V} {entries : List (K × V)} (ordered : Ordered keys map entries) :
    ∀ other, Ordered keys (Function.update dicts self map other)
      (Function.update spec self entries other) := by
  intro other
  by_cases here : other = self
  · subst here
    rwa [update_self, update_self]
  · rw [update_of_ne here, update_of_ne here]
    exact holds other

omit [DecidableEq K] in
/-- The items of an update. -/
theorem items_eq (holds : ∀ self, Ordered keys (dicts self) (spec self)) (self : ι)
    (source : DictSource ι K V) :
    source.items dicts self = some (rawItems (specItems spec self source)) := by
  cases source with
  | nothing => rfl
  | pairs items => rfl
  | dict other =>
    by_cases same : other = self
    · simp [DictSource.items, specItems, same, rawItems]
    · simp [DictSource.items, specItems, same, dictItems_eq (holds other).sized,
        (holds other).entries_eq, rawItems]

/-- A call that fits answers as the association lists do, and keeps the dictionaries theirs. -/
theorem dictCall_spec (lawful : keys.Lawful) (holds : ∀ self, Ordered keys (dicts self) (spec self))
    {made : DictCall ι K V} (fits : Fits keys dicts made) :
    ∃ after answer, dictCall keys noneObject dicts made = some (after, answer) ∧
      ((answer = (specDictCall keys noneObject spec made).2 ∧ answer.outOfMemory = false ∧
          ∀ self, Ordered keys (after self) ((specDictCall keys noneObject spec made).1 self)) ∨
        answer.outOfMemory = true ∧ after = dicts) := by
  cases made with
  | store heap self key value =>
    obtain ⟨after, ran, ordered⟩ := (holds self).storeValue lawful fits value
    refine ⟨Function.update dicts self after, .done, ?_, .inl ⟨rfl, rfl, ordered_update holds
      ordered⟩⟩
    simp [dictCall, MpMap.mpObjDictStore, (holds self).notFixed, ran, putBack]
  | delete heap self key =>
    rcases (holds self).getHelper_remove heap lawful noneObject key none with
      ⟨absent, ran⟩ | ⟨entry, after, found, ran, ordered⟩
    · refine ⟨dicts, .raised .keyError, by simp [dictCall, MpMap.mpObjDictDelete, ran, putBack],
        .inl ?_⟩
      simpa [specDictCall, absent, DictAnswer.outOfMemory] using holds
    · refine ⟨Function.update dicts self after, .done,
        by simp [dictCall, MpMap.mpObjDictDelete, ran, putBack], .inl ?_⟩
      simpa [specDictCall, found, DictAnswer.outOfMemory] using ordered_update holds ordered
  | pop heap self key fallback =>
    rcases (holds self).getHelper_remove heap lawful noneObject key fallback with
      ⟨absent, ran⟩ | ⟨entry, after, found, ran, ordered⟩
    · cases fallback with
      | none =>
        refine ⟨dicts, .raised .keyError, by simp [dictCall, MpMap.dictPop, ran, putBack],
          .inl ?_⟩
        simpa [specDictCall, absent, DictAnswer.outOfMemory] using holds
      | some value =>
        refine ⟨dicts, .value value, by simp [dictCall, MpMap.dictPop, ran, putBack], .inl ?_⟩
        simpa [specDictCall, absent, DictAnswer.outOfMemory] using holds
    · refine ⟨Function.update dicts self after, .value entry.2,
        by simp [dictCall, MpMap.dictPop, ran, putBack], .inl ?_⟩
      simpa [specDictCall, found, DictAnswer.outOfMemory] using ordered_update holds ordered
  | popitem heap self =>
    rcases (holds self).popitem noneObject fits.1 fits.2 with
      ⟨empty, ran⟩ | ⟨entry, after, one, ran, ordered⟩
    · refine ⟨dicts, .raised .keyError, by simp [dictCall, ran, putBack], .inl ?_⟩
      simpa [specDictCall, empty, DictAnswer.outOfMemory] using holds
    · refine ⟨Function.update dicts self after, .item entry.1 entry.2,
        by simp [dictCall, ran, putBack], .inl ?_⟩
      simpa [specDictCall, one, DictAnswer.outOfMemory] using ordered_update holds ordered
  | setdefault heap self key fallback =>
    rcases (holds self).setdefault lawful noneObject fits fallback with
      ⟨absent, after, ran, ordered⟩ | ⟨entry, found, ran⟩
    · refine ⟨Function.update dicts self after, .value (fallback.getD noneObject),
        by simp [dictCall, ran, putBack], .inl ?_⟩
      simpa [specDictCall, absent, DictAnswer.outOfMemory] using ordered_update holds ordered
    · refine ⟨dicts, .value entry.2, by simp [dictCall, ran, putBack], .inl ?_⟩
      simpa [specDictCall, found, DictAnswer.outOfMemory] using holds
  | update heap self source kwargs =>
    have items := items_eq holds self source
    have joined : rawItems (specItems spec self source) ++ kwargsItems kwargs =
        rawItems (specItems spec self source ++ kwargs.map some) := by
      simp [rawItems, kwargsItems]
    simp only [Fits, items, joined] at fits
    obtain ⟨after, ran, ordered⟩ := (holds self).updateItems lawful _ fits
    refine ⟨Function.update dicts self after, _, ?_, .inl ⟨rfl, ?_, ordered_update holds ordered⟩⟩
    · simp [dictCall, items, (holds self).dictUpdate_eq, joined, ran, putBack, specDictCall]
    · exact specUpdate_answer _ _
  | copy heap self into =>
    cases room : heap (dicts self).alloc with
    | false =>
      exact ⟨dicts, .raised .memoryError, by simp [dictCall, MpMap.dictCopy, room], .inr ⟨rfl, rfl⟩⟩
    | true =>
      have whole : (dicts self).table.take (dicts self).alloc = (dicts self).table := by
        rw [← (holds self).sized, take_length]
      have copied : (dicts self).dictCopy heap = some (dicts self) := by
        rw [MpMap.dictCopy, if_pos room, whole, ← (holds self).notFixed]
      refine ⟨Function.update dicts into (dicts self), .done, by simp [dictCall, copied],
        .inl ⟨rfl, rfl, ordered_update holds (holds self)⟩⟩
  | clear self =>
    refine ⟨Function.update dicts self (dicts self).mpMapClear, .done, ?_, .inl ⟨rfl, rfl, ?_⟩⟩
    · simp [dictCall, MpMap.dictClear, (holds self).notFixed, putBack]
    · refine ordered_update holds ⟨(holds self).ordered, rfl, ⟨[], rfl, by simp⟩, rfl, rfl, .nil,
        by simp⟩

/-- In every run in which the calls fit, the dictionaries are association lists in the order of
insertion. -/
theorem orderedDict_refines (lawful : keys.Lawful)
    {run : List (DictCall ι K V × DictHistory ι K V)}
    (runs : Run (fun s made after => DictHistory.next keys noneObject s made = some after)
      DictHistory.initial run)
    (fits : ∀ taken ∈ fired DictHistory.initial run, Fits keys taken.1.dicts taken.2) :
    ∀ s ∈ visited DictHistory.initial run, DictsRefine keys noneObject s := by
  intro s member
  have holds : ∀ self, Ordered keys (s.dicts self) (s.spec self) := by
    refine runs.invariant_of_fired
      (fun s : DictHistory ι K V => ∀ self, Ordered keys (s.dicts self) (s.spec self))
      (fun s made => Fits keys s.dicts made) (fun _ => .makeNew)
      (fun {state event next} holds fits stepped => ?_) fits s member
    obtain ⟨after, answer, called, outcome⟩ := dictCall_spec lawful holds fits
    rw [DictHistory.next, called] at stepped
    obtain rfl := some.inj stepped
    rcases outcome with ⟨_, enough, ordered⟩ | ⟨out, rfl⟩
    · simpa [enough] using ordered
    · simpa [out] using holds
  refine ⟨fun self => ?_, fun self => (holds self).once, fun self => (holds self).used,
    fun made fits => ?_⟩
  · rw [dictItems_eq (holds self).sized, (holds self).entries_eq]
  · obtain ⟨after, answer, called, outcome⟩ := dictCall_spec lawful holds fits
    refine ⟨after, answer, called, outcome.imp_left And.left⟩

end Runs

/-- Entries are removed and added again, and the last one is popped from a copy. -/
theorem orderedDict_refines_copy :
    ∃ run : List (DictCall Bool Nat Nat × DictHistory Bool Nat Nat),
      (run.map fun taken => (taken.2.spec false, taken.2.spec true)) =
        [([(1, 10)], []), ([(1, 10), (5, 50)], []), ([(5, 50)], []), ([(5, 50)], [(5, 50)]),
          ([(5, 50), (1, 0)], [(5, 50)]), ([(5, 50), (1, 0)], [])] ∧
      ∀ s ∈ visited DictHistory.initial run, DictsRefine numberKeys 0 s := by
  let roomy : Nat → Bool := fun _ => true
  let calls : List (DictCall Bool Nat Nat) := [.store roomy false 1 10, .store roomy false 5 50,
    .delete roomy false 1, .copy roomy false true, .setdefault roomy false 1 none,
    .popitem roomy true]
  have fits : ∀ taken ∈ fired DictHistory.initial
      (trace (DictHistory.next numberKeys 0) DictHistory.initial calls),
      Fits numberKeys taken.1.dicts taken.2 := by decide
  refine ⟨trace (DictHistory.next numberKeys 0) DictHistory.initial calls, by decide, ?_⟩
  exact orderedDict_refines numberKeys_lawful
    (Run.of_trace (fun _ _ => True) (fun _ happens => happens) calls fun _ _ => trivial) fits

/-- After `dict_popitem` of a dictionary with two entries, the next new key takes the slot of the
other entry: its key is lost, and the length is wrong. -/
theorem popitem_drops_entry :
    ∃ run : List (DictCall Unit Nat Nat × DictHistory Unit Nat Nat),
      Run (fun s made after => DictHistory.next numberKeys 0 s made = some after)
        DictHistory.initial run ∧
      ∃ s ∈ visited DictHistory.initial run, s.spec () = [(1, 11), (2, 12)] ∧
        (s.dicts ()).dictItems = some [(2, some 12)] ∧ (s.dicts ()).used = 2 ∧
        ¬DictsRefine numberKeys 0 s := by
  let roomy : Nat → Bool := fun _ => true
  let calls : List (DictCall Unit Nat Nat) := [.store roomy () 0 10, .store roomy () 1 11,
    .popitem roomy (), .store roomy () 2 12]
  let run := trace (DictHistory.next numberKeys 0) DictHistory.initial calls
  let last := (visited DictHistory.initial run).getLast (cons_ne_nil _ _)
  have live : last.spec () = [(1, 11), (2, 12)] := by decide
  have visible : (last.dicts ()).dictItems = some [(2, some 12)] := by decide
  refine ⟨run, Run.of_trace (fun _ _ => True) (fun _ happens => happens) calls fun _ _ => trivial,
    last, getLast_mem _, live, visible, by decide, fun refines => ?_⟩
  have items := refines.items ()
  rw [live, visible] at items
  revert items
  decide

end MultiPython.Map
