import MultiPython.Map.HashTable
import MultiPython.Map.OrderedDict

/-!
# Equality of dictionaries

`mp_obj_equal` for two dictionaries, with `dict_binary_op` behind it. Two objects of the type
`OrderedDict` are walked side by side. Otherwise the operand on the right has to be a `dict`, and
the entries of the one on the left are looked up in it; so an `OrderedDict` may be equal to a
`dict` on its right, and never is to one on its left.
-/

namespace MultiPython.Map

open Logic List Option

/-- `mp_type_dict` and `mp_type_ordereddict`. -/
inductive DictType where
  | dict
  | orderedDict
deriving DecidableEq, Repr

/-- `mp_obj_dict_t`, and where it is. -/
structure MpObjDict (K V : Type) where
  address : Nat
  type : DictType
  map : MpMap K V

section Model

variable {K V : Type} [DecidableEq K] (keys : MpKeys K) (equal : V → V → Bool)

/-- `mp_obj_equal` on two values, neither of which is `MP_OBJ_NULL`. -/
def valuesEqual (one other : Option V) : Option Bool := do
  let one ← one
  let other ← other
  some (equal one other)

/-- The entry at which `dict_iter_next` has stopped. -/
def iterEntry (map : MpMap K V) (pos : Nat) : Option (K × Option V) :=
  map.table[pos]?.bind MpMap.slotEntry

/-- The loop of `dict_binary_op` for two objects of the type `OrderedDict`. -/
def equalWalk (lhs rhs : MpMap K V) : Nat → Nat → Nat → Option Bool
  | 0, _, _ => none
  | fuel + 1, c1, c2 => do
      match ← lhs.dictIterNext c1, ← rhs.dictIterNext c2 with
      | some e1, some e2 => do
          let one ← iterEntry lhs e1
          let other ← iterEntry rhs e2
          if keys.equal one.1 other.1 = false then some false
          else if (← valuesEqual equal one.2 other.2) = false then some false
          else equalWalk lhs rhs fuel (e1 + 1) (e2 + 1)
      | none, none => some true
      | _, _ => some false

/-- The loop of `dict_binary_op` that looks the entries up. Looking up allocates nothing. -/
def equalLookups (lhs rhs : MpMap K V) : Nat → Nat → Option Bool
  | 0, _ => none
  | fuel + 1, cur => do
      match ← lhs.dictIterNext cur with
      | none => some true
      | some pos => do
          let next ← iterEntry lhs pos
          match ← rhs.mpMapLookup keys (fun _ => false) next.1 .lookup with
          | (_, .slot found) => do
              let elem ← rhs.table[found]?
              if (← valuesEqual equal next.2 elem.value) = false then some false
              else equalLookups lhs rhs fuel (pos + 1)
          | _ => some false

/-- `dict_binary_op` for `MP_BINARY_OP_EQUAL`. -/
def dictBinaryOpEqual (lhs rhs : MpObjDict K V) : Option Bool :=
  if lhs.type = .orderedDict ∧ rhs.type = .orderedDict then
    equalWalk keys equal lhs.map rhs.map (lhs.map.alloc + 1) 0 0
  else if rhs.type = .dict then
    if lhs.map.used ≠ rhs.map.used then some false
    else equalLookups keys equal lhs.map rhs.map (lhs.map.alloc + 1) 0
  else
    some false

/-- `mp_obj_equal`, for two dictionaries. -/
def mpObjEqualDict (o1 o2 : MpObjDict K V) : Option Bool :=
  if o1.address = o2.address then some true else dictBinaryOpEqual keys equal o1 o2

end Model

/-! ## Keys that are the same object -/

section Identity

variable {K V : Type} [DecidableEq K] (keys : MpKeys K) (heap : Nat → Bool)

/-- The test of keys in `mp_map_lookup`: a key is equal to itself there. -/
def MpKeys.orSame : MpKeys K :=
  { keys with equal := fun one other => decide (one = other) || keys.equal one other }

theorem MpKeys.test_orSame (onlyPtrs : Bool) (key index : K) :
    (key = index ∨ (onlyPtrs = false ∧ keys.orSame.equal key index = true)) ↔
      (key = index ∨ (onlyPtrs = false ∧ keys.equal key index = true)) := by
  simp only [orSame, Bool.or_eq_true, decide_eq_true_eq]
  tauto

theorem orderedFind_orSame (onlyPtrs : Bool) (index : K) (table : List (MpMapElem K V))
    (left pos : Nat) :
    MpMap.orderedFind keys.orSame onlyPtrs index table left pos =
      MpMap.orderedFind keys onlyPtrs index table left pos := by
  induction left generalizing pos with
  | zero => rfl
  | succ left ih =>
    simp only [MpMap.orderedFind, ih, keys.test_orSame]

/-- Whether `mp_obj_equal` finds a key equal to itself makes no difference to a lookup. -/
theorem mpMapLookup_orSame (map : MpMap K V) (index : K) :
    map.mpMapLookup keys.orSame heap index .lookup = map.mpMapLookup keys heap index .lookup := by
  have test : ∀ onlyPtrs : Bool, (fun key => decide (key = index) ||
      (!onlyPtrs && keys.orSame.equal key index)) =
        fun key => decide (key = index) || (!onlyPtrs && keys.equal key index) := by
    intro onlyPtrs
    funext key
    by_cases same : key = index <;> simp [MpKeys.orSame, same]
  have hashes : keys.orSame.hash = keys.hash := rfl
  have hashing : ∀ add other onlyPtrs, map.mpMapLookupHash keys.orSame heap add onlyPtrs index
      .lookup 2 = map.mpMapLookupHash keys heap other onlyPtrs index .lookup 2 := by
    intro add other onlyPtrs
    rw [MpMap.mpMapLookupHash, MpMap.mpMapLookupHash]
    simp only [test, hashes]
    refine congrArg _ (funext fun ended => ?_)
    cases ended <;> simp
  have ordered : ∀ onlyPtrs, map.mpMapLookupOrdered keys.orSame heap onlyPtrs index .lookup =
      map.mpMapLookupOrdered keys heap onlyPtrs index .lookup := by
    intro onlyPtrs
    simp only [MpMap.mpMapLookupOrdered, orderedFind_orSame]
    refine congrArg _ (funext fun found => ?_)
    cases found <;> simp
  rw [MpMap.mpMapLookup, MpMap.mpMapLookup, MpMap.mpMapLookupNested, MpMap.mpMapLookupNested]
  simp only [ordered]
  refine if_congr Iff.rfl rfl (if_congr Iff.rfl rfl (if_congr Iff.rfl ?_ (hashing _ _ _)))
  simp

end Identity

/-! ## What the loops find out -/

section Loops

variable {K V : Type} {map lhs rhs : MpMap K V} {pairs lhsPairs rhsPairs : List (K × V)}

/-- The entries of a map, each with its value, in the order of iteration. -/
structure Listed (map : MpMap K V) (pairs : List (K × V)) : Prop where
  sized : map.table.length = map.alloc
  entries : map.entries = pairs.map fun pair => (pair.1, some pair.2)

/-- The entries behind a position of the table. -/
def Remaining (map : MpMap K V) (cur : Nat) (pairs : List (K × V)) : Prop :=
  cur ≤ map.table.length ∧
    (map.table.drop cur).filterMap MpMap.slotEntry = pairs.map fun pair => (pair.1, some pair.2)

theorem Listed.remaining (listed : Listed map pairs) : Remaining map 0 pairs :=
  ⟨Nat.zero_le _, by rw [drop_zero]; exact listed.entries⟩

theorem Listed.length_le (listed : Listed map pairs) :
    pairs.length ≤ map.alloc := by
  have entries := congrArg length listed.entries
  rw [length_map, MpMap.entries] at entries
  rw [← entries, ← listed.sized]
  exact length_filterMap_le _ _

theorem dictIterNext_end {cur : Nat} (sized : map.table.length = map.alloc)
    (remaining : Remaining map cur []) : map.dictIterNext cur = some none := by
  rcases dictIterFrom_spec map.table (Nat.add_sub_of_le remaining.1) with
    ⟨ran, _⟩ | ⟨found, entry, _, _, _, _, split⟩
  · rw [MpMap.dictIterNext, ← sized, ran]
  · rw [remaining.2] at split
    cases split

theorem dictIterNext_pair {cur : Nat} {pair : K × V} (sized : map.table.length = map.alloc)
    (remaining : Remaining map cur (pair :: pairs)) :
    ∃ pos, map.dictIterNext cur = some (some pos) ∧
      iterEntry map pos = some (pair.1, some pair.2) ∧ Remaining map (pos + 1) pairs := by
  rcases dictIterFrom_spec map.table (Nat.add_sub_of_le remaining.1) with
    ⟨_, nothing⟩ | ⟨found, entry, ran, _, inside, isEntry, split⟩
  · rw [remaining.2] at nothing
    cases nothing
  · rw [remaining.2, map_cons, cons.injEq] at split
    refine ⟨found, ?_, ?_, inside, split.2.symm⟩
    · rw [MpMap.dictIterNext, ← sized, ran]
    · rw [split.1]
      exact isEntry

variable [DecidableEq K] {keys : MpKeys K} {equal : V → V → Bool}

/-- Two entries of an `OrderedDict` that are equal. -/
def PairsEqual (keys : MpKeys K) (equal : V → V → Bool) (one other : K × V) : Prop :=
  keys.equal one.1 other.1 = true ∧ equal one.2 other.2 = true

omit [DecidableEq K] in
/-- Walking side by side compares the entries in order. -/
theorem equalWalk_spec (keys : MpKeys K) (equal : V → V → Bool) (lhsSized : lhs.table.length = lhs.alloc)
    (rhsSized : rhs.table.length = rhs.alloc) {fuel c1 c2 : Nat}
    (lhsRest : Remaining lhs c1 lhsPairs) (rhsRest : Remaining rhs c2 rhsPairs)
    (enough : lhsPairs.length < fuel) :
    ∃ result, equalWalk keys equal lhs rhs fuel c1 c2 = some result ∧
      (result = true ↔ List.Forall₂ (PairsEqual keys equal) lhsPairs rhsPairs) := by
  induction lhsPairs generalizing fuel c1 c2 rhsPairs with
  | nil =>
    obtain ⟨fuel, rfl⟩ := Nat.exists_eq_add_of_lt enough
    have lhsEnd := dictIterNext_end lhsSized lhsRest
    cases rhsPairs with
    | nil =>
      have rhsEnd := dictIterNext_end rhsSized rhsRest
      exact ⟨true, by simp [equalWalk, lhsEnd, rhsEnd], by simp⟩
    | cons pair rhsPairs =>
      obtain ⟨pos, rhsNext, _⟩ := dictIterNext_pair rhsSized rhsRest
      exact ⟨false, by simp [equalWalk, lhsEnd, rhsNext], by simp⟩
  | cons one lhsPairs ih =>
    obtain ⟨fuel, rfl⟩ : ∃ more, fuel = more + 1 := ⟨fuel - 1, by omega⟩
    rw [length_cons] at enough
    obtain ⟨e1, lhsNext, lhsEntry, lhsMore⟩ := dictIterNext_pair lhsSized lhsRest
    cases rhsPairs with
    | nil =>
      have rhsEnd := dictIterNext_end rhsSized rhsRest
      exact ⟨false, by simp [equalWalk, lhsNext, rhsEnd], by simp⟩
    | cons other rhsPairs =>
      obtain ⟨e2, rhsNext, rhsEntry, rhsMore⟩ := dictIterNext_pair rhsSized rhsRest
      obtain ⟨result, ran, isResult⟩ := ih lhsMore rhsMore (by omega : _ < fuel)
      rw [forall₂_cons, ← isResult]
      cases sameKey : keys.equal one.1 other.1 with
      | false =>
        exact ⟨false, by simp [equalWalk, lhsNext, rhsNext, lhsEntry, rhsEntry, sameKey],
          by simp [PairsEqual, sameKey]⟩
      | true =>
        cases sameValue : equal one.2 other.2 with
        | false =>
          exact ⟨false, by simp [equalWalk, lhsNext, rhsNext, lhsEntry, rhsEntry, sameKey,
            valuesEqual, sameValue], by simp [PairsEqual, sameValue]⟩
        | true =>
          exact ⟨result, by simp [equalWalk, lhsNext, rhsNext, lhsEntry, rhsEntry, sameKey,
            valuesEqual, sameValue, ran], by simp [PairsEqual, sameKey, sameValue]⟩

/-- Every entry of a list is in another one, with an equal value. -/
def Covered (keys : MpKeys K) (equal : V → V → Bool) (pairs others : List (K × V)) : Prop :=
  ∀ pair ∈ pairs, ∃ other ∈ others, keys.orSame.equal other.1 pair.1 = true ∧
    equal pair.2 other.2 = true

/-- Looking a key up finds the one entry that has it. -/
structure LooksUp (keys : MpKeys K) (map : MpMap K V) (pairs : List (K × V)) (index : K) : Prop where
  cases : (map.mpMapLookup keys (fun _ => false) index .lookup = some (map, .null) ∧
      ∀ pair ∈ pairs, keys.orSame.equal pair.1 index = false) ∨
    ∃ pos pair, map.mpMapLookup keys (fun _ => false) index .lookup = some (map, .slot pos) ∧
      map.table[pos]? = some (filled pair) ∧ pair ∈ pairs ∧
      keys.orSame.equal pair.1 index = true ∧
      ∀ other ∈ pairs, keys.orSame.equal other.1 index = true → other = pair

/-- Looking up the entries finds out whether each of them is in the other map. -/
theorem equalLookups_spec (equal : V → V → Bool) (sized : lhs.table.length = lhs.alloc)
    (looksUp : ∀ index, LooksUp keys rhs rhsPairs index) {fuel cur : Nat}
    (rest : Remaining lhs cur lhsPairs) (enough : lhsPairs.length < fuel) :
    ∃ result, equalLookups keys equal lhs rhs fuel cur = some result ∧
      (result = true ↔ Covered keys equal lhsPairs rhsPairs) := by
  induction lhsPairs generalizing fuel cur with
  | nil =>
    obtain ⟨fuel, rfl⟩ := Nat.exists_eq_add_of_lt enough
    have lhsEnd := dictIterNext_end sized rest
    exact ⟨true, by simp [equalLookups, lhsEnd], by simp [Covered]⟩
  | cons next lhsPairs ih =>
    obtain ⟨fuel, rfl⟩ : ∃ more, fuel = more + 1 := ⟨fuel - 1, by omega⟩
    rw [length_cons] at enough
    obtain ⟨pos, lhsNext, lhsEntry, more⟩ := dictIterNext_pair sized rest
    obtain ⟨result, ran, isResult⟩ := ih more (by omega : _ < fuel)
    rcases (looksUp next.1).cases with ⟨null, absent⟩ | ⟨found, pair, slot, here, member, same, only⟩
    · refine ⟨false, by simp [equalLookups, lhsNext, lhsEntry, null], ?_⟩
      refine iff_of_false (by simp) fun covered => ?_
      obtain ⟨other, there, sameKey, _⟩ := covered next mem_cons_self
      simp [absent other there] at sameKey
    · cases sameValue : equal next.2 pair.2 with
      | false =>
        refine ⟨false, by simp [equalLookups, lhsNext, lhsEntry, slot, here, filled, valuesEqual,
          sameValue], ?_⟩
        refine iff_of_false (by simp) fun covered => ?_
        obtain ⟨other, there, sameKey, alike⟩ := covered next mem_cons_self
        rw [only other there sameKey] at alike
        simp [sameValue] at alike
      | true =>
        refine ⟨result, by simp [equalLookups, lhsNext, lhsEntry, slot, here, filled, valuesEqual,
          sameValue, ran], ?_⟩
        rw [isResult, Covered, Covered, forall_mem_cons]
        exact (and_iff_right ⟨pair, member, same, sameValue⟩).symm

end Loops

/-! ## The maps of dictionaries -/

section Maps

variable {K V : Type} [DecidableEq K] {keys : MpKeys K} {map : MpMap K V} {pairs : List (K × V)}

/-- The map of a `dict`: a hash table, or a constant array such as the names of a module. -/
inductive PlainMap (keys : MpKeys K) (map : MpMap K V) (pairs : List (K × V)) : Prop where
  | table (hashed : Hashed keys.orSame map)
  | array (ordered : Ordered keys.orSame { map with isFixed := false } pairs)

theorem mpMapLookup_fixed (map : MpMap K V) (isOrdered : map.isOrdered = true) (heap : Nat → Bool) {index : K}
    {answer : MpMapAnswer}
    (ran : MpMap.mpMapLookup keys heap { map with isFixed := false } index .lookup =
      some ({ map with isFixed := false }, answer)) :
    map.mpMapLookup keys heap index .lookup = some (map, answer) := by
  rw [MpMap.mpMapLookup, MpMap.mpMapLookupNested] at ran ⊢
  split at ran
  · rename_i shortcut
    rw [if_pos shortcut]
    simp only [some.injEq, Prod.mk.injEq] at ran
    rw [ran.2]
  · rename_i shortcut
    rw [if_neg shortcut]
    simp only [isOrdered, if_true, MpMap.mpMapLookupOrdered] at ran ⊢
    cases found : MpMap.orderedFind keys
        (map.allKeysAreQstrs && (keys.isQstr index || !keys.isStr index)) index map.table map.used 0 with
    | none => simp [found] at ran
    | some answered =>
      rw [found] at ran
      cases answered <;> simp at ran ⊢ <;> exact ran

theorem Hashed.looksUp (lawful : keys.orSame.Lawful) (hashed : Hashed keys.orSame map)
    (listed : Listed map pairs) (apart : pairs.Pairwise (Assoc.Differ Prod.fst keys.orSame.equal))
    (index : K) : LooksUp keys map pairs index := by
  have notAdd : MpMapLookupKind.lookup ≠ .addIfNotFound := by simp
  refine ⟨?_⟩
  rw [← mpMapLookup_orSame]
  rcases hashed.lookup_cases (fun _ => false) lawful index notAdd with
    ⟨absent, ran⟩ | ⟨pos, key, value, here, same, ran⟩
  · refine .inl ⟨ran, fun pair member => absent (pair.1, some pair.2) ?_⟩
    rw [listed.entries]
    exact mem_map_of_mem member
  · have isEntry : (key, value) ∈ map.entries := MpMap.mem_entries.mpr ⟨pos, here⟩
    rw [listed.entries] at isEntry
    obtain ⟨pair, member, isPair⟩ := mem_map.mp isEntry
    obtain ⟨rfl, rfl⟩ := Prod.mk.inj isPair
    exact .inr ⟨pos, pair, ran, here, member, same, Assoc.only lawful.congruent apart member same⟩

theorem Ordered.looksUp (lawful : keys.orSame.Lawful)
    (ordered : Ordered keys.orSame { map with isFixed := false } pairs) (index : K) :
    LooksUp keys map pairs index := by
  refine ⟨?_⟩
  rw [← mpMapLookup_orSame]
  rcases ordered.lookup_cases (fun _ => false) lawful index .lookup with
    ⟨absent, ran⟩ | ⟨before, pair, after, split, same, ran⟩
  · rw [if_pos (by simp)] at ran
    exact .inl ⟨mpMapLookup_fixed map ordered.ordered _ ran, absent⟩
  · rw [if_neg (by simp)] at ran
    have member : pair ∈ pairs := by simp [split]
    obtain ⟨rest, table, _⟩ := ordered.table
    have here : map.table[before.length]? = some (filled pair) := by
      have isTable : map.table = pairs.map filled ++ rest := table
      rw [isTable, split]
      simp
    exact .inr ⟨before.length, pair, mpMapLookup_fixed map ordered.ordered _ ran, here, member, same,
      Assoc.only lawful.congruent ordered.once member same⟩

/-- What the comparison relies on in a `dict`. -/
structure Plain (keys : MpKeys K) (map : MpMap K V) (pairs : List (K × V)) : Prop where
  used : map.used = pairs.length
  apart : pairs.Pairwise (Assoc.Differ Prod.fst keys.orSame.equal)
  looksUp : ∀ index, LooksUp keys map pairs index

theorem PlainMap.plain (lawful : keys.orSame.Lawful) (listed : Listed map pairs)
    (plain : PlainMap keys map pairs) : Plain keys map pairs := by
  cases plain with
  | table hashed =>
    have apart : pairs.Pairwise (Assoc.Differ Prod.fst keys.orSame.equal) := by
      have apart := hashed.apart
      rw [listed.entries, pairwise_map] at apart
      exact apart
    refine ⟨?_, apart, hashed.looksUp lawful listed apart⟩
    rw [hashed.used, listed.entries, length_map]
  | array ordered => exact ⟨ordered.used, ordered.once, ordered.looksUp lawful⟩

end Maps

/-! ## Both ways around -/

section Equality

variable {K V : Type} [DecidableEq K] {keys : MpKeys K} {equal : V → V → Bool} {a b : MpObjDict K V}
  {aPairs bPairs : List (K × V)}

/-- A dictionary and its entries in the order of iteration. What an `OrderedDict` counts as used
may be more than that, once entries have been removed with `popitem`. -/
structure DictHolds (keys : MpKeys K) (object : MpObjDict K V) (pairs : List (K × V)) : Prop where
  listed : Listed object.map pairs
  plain : object.type = .dict → PlainMap keys object.map pairs

/-- What `dict_binary_op` finds out. -/
def ComparesEqual (keys : MpKeys K) (equal : V → V → Bool) (lhs rhs : MpObjDict K V)
    (lhsPairs rhsPairs : List (K × V)) : Prop :=
  (lhs.type = .orderedDict ∧ rhs.type = .orderedDict ∧
      List.Forall₂ (PairsEqual keys equal) lhsPairs rhsPairs) ∨
    (rhs.type = .dict ∧ lhs.map.used = rhs.map.used ∧ Covered keys equal lhsPairs rhsPairs)

theorem dictBinaryOpEqual_spec (equal : V → V → Bool) (lawful : keys.orSame.Lawful) (aHolds : DictHolds keys a aPairs)
    (bHolds : DictHolds keys b bPairs) :
    ∃ result, dictBinaryOpEqual keys equal a b = some result ∧
      (result = true ↔ ComparesEqual keys equal a b aPairs bPairs) := by
  have enough : aPairs.length < a.map.alloc + 1 := Nat.lt_succ_of_le aHolds.listed.length_le
  rw [dictBinaryOpEqual]
  cases bType : b.type with
  | dict =>
    have plain := (bHolds.plain bType).plain lawful bHolds.listed
    rw [if_neg (by simp), if_pos rfl]
    by_cases used : a.map.used = b.map.used
    · rw [if_neg (not_not_intro used)]
      obtain ⟨result, ran, isResult⟩ := equalLookups_spec equal aHolds.listed.sized
        plain.looksUp aHolds.listed.remaining enough
      exact ⟨result, ran, by simp [ComparesEqual, bType, used, isResult]⟩
    · exact ⟨false, if_pos used, by simp [ComparesEqual, bType, used]⟩
  | orderedDict =>
    cases aType : a.type with
    | dict => exact ⟨false, by simp, by simp [ComparesEqual, aType, bType]⟩
    | orderedDict =>
      rw [if_pos ⟨rfl, rfl⟩]
      obtain ⟨result, ran, isResult⟩ := equalWalk_spec keys equal
        aHolds.listed.sized bHolds.listed.sized aHolds.listed.remaining bHolds.listed.remaining enough
      exact ⟨result, ran, by simp [ComparesEqual, aType, bType, isResult]⟩

/-- Two dictionaries have the same keys with equal values. -/
def SameContents (keys : MpKeys K) (equal : V → V → Bool) (pairs others : List (K × V)) : Prop :=
  Covered keys equal pairs others ∧
    ∀ other ∈ others, ∃ pair ∈ pairs, keys.orSame.equal pair.1 other.1 = true

theorem Covered.keys_covered (covered : Covered keys equal aPairs bPairs) :
    ∀ pair ∈ aPairs, ∃ other ∈ bPairs, keys.orSame.equal other.1 pair.1 = true := by
  intro pair member
  obtain ⟨other, there, same, _⟩ := covered pair member
  exact ⟨other, there, same⟩

theorem Plain.sameContents_iff (equal : V → V → Bool) {aMap bMap : MpMap K V} (lawful : keys.orSame.Lawful)
    (aPlain : Plain keys aMap aPairs) (bPlain : Plain keys bMap bPairs) :
    aMap.used = bMap.used ∧ Covered keys equal aPairs bPairs ↔
      SameContents keys equal aPairs bPairs := by
  rw [aPlain.used, bPlain.used]
  refine ⟨fun ⟨length, covered⟩ => ⟨covered, ?_⟩, fun ⟨covered, back⟩ => ⟨?_, covered⟩⟩
  · exact Assoc.covers_back lawful.congruent aPlain.apart covered.keys_covered length
  · exact Nat.le_antisymm (Assoc.length_le_of_covered lawful.congruent aPlain.apart covered.keys_covered)
      (Assoc.length_le_of_covered lawful.congruent bPlain.apart back)

/-- The values of two dictionaries are compared with the same result both ways around. -/
def ValuesSymmetric (equal : V → V → Bool) (aPairs bPairs : List (K × V)) : Prop :=
  ∀ one ∈ aPairs, ∀ other ∈ bPairs, equal one.2 other.2 = equal other.2 one.2

theorem SameContents.symm (lawful : keys.orSame.Lawful)
    (apart : bPairs.Pairwise (Assoc.Differ Prod.fst keys.orSame.equal))
    (values : ValuesSymmetric equal aPairs bPairs) (same : SameContents keys equal aPairs bPairs) :
    SameContents keys equal bPairs aPairs := by
  refine ⟨fun other there => ?_, same.1.keys_covered⟩
  obtain ⟨pair, member, sameKey⟩ := same.2 other there
  obtain ⟨found, isFound, foundKey, sameValue⟩ := same.1 pair member
  have isOther : found = other := Assoc.only lawful.congruent apart there
    (lawful.symm sameKey) found isFound foundKey
  rw [isOther, values pair member other there] at sameValue
  exact ⟨pair, member, sameKey, sameValue⟩

theorem equal_comm (lawful : keys.orSame.Lawful) (one other : K) :
    keys.equal one other = keys.equal other one := by
  by_cases same : one = other
  · rw [same]
  · have comm := lawful.equal_comm one other
    simpa [MpKeys.orSame, same, Ne.symm same] using comm

theorem pairsEqual_symm (lawful : keys.orSame.Lawful) (values : ValuesSymmetric equal aPairs bPairs)
    (equals : List.Forall₂ (PairsEqual keys equal) aPairs bPairs) :
    List.Forall₂ (PairsEqual keys equal) bPairs aPairs := by
  rw [forall₂_iff_get] at equals ⊢
  refine ⟨equals.1.symm, fun pos inside within => ?_⟩
  obtain ⟨sameKey, sameValue⟩ := equals.2 pos within inside
  rw [equal_comm lawful] at sameKey
  rw [values _ (get_mem _ _) _ (get_mem _ _)] at sameValue
  exact ⟨sameKey, sameValue⟩

theorem comparesEqual_symm (lawful : keys.orSame.Lawful) (aHolds : DictHolds keys a aPairs)
    (bHolds : DictHolds keys b bPairs) (values : ValuesSymmetric equal aPairs bPairs)
    (sameType : a.type = b.type) (equals : ComparesEqual keys equal a b aPairs bPairs) :
    ComparesEqual keys equal b a bPairs aPairs := by
  rcases equals with ⟨aOrdered, bOrdered, walked⟩ | ⟨bDict, contents⟩
  · exact .inl ⟨bOrdered, aOrdered, pairsEqual_symm lawful values walked⟩
  · have aPlain := (aHolds.plain (sameType.trans bDict)).plain lawful aHolds.listed
    have bPlain := (bHolds.plain bDict).plain lawful bHolds.listed
    have same := (aPlain.sameContents_iff equal lawful bPlain).mp contents
    exact .inr ⟨sameType.trans bDict,
      (bPlain.sameContents_iff equal lawful aPlain).mpr (same.symm lawful bPlain.apart values)⟩

omit [DecidableEq K] in
theorem ValuesSymmetric.symm (values : ValuesSymmetric equal aPairs bPairs) :
    ValuesSymmetric equal bPairs aPairs :=
  fun one member other there => (values other there one member).symm

/-- `==` has one result both ways around; that of two objects of the type `dict` is whether they
have the same contents. -/
def EqualityAgrees (keys : MpKeys K) (equal : V → V → Bool) (a b : MpObjDict K V)
    (aPairs bPairs : List (K × V)) : Prop :=
  ∃ result, mpObjEqualDict keys equal a b = some result ∧
    mpObjEqualDict keys equal b a = some result ∧
    (a.type = .dict → b.type = .dict → (result = true ↔ SameContents keys equal aPairs bPairs))

/-- An `OrderedDict` that is equal to a `dict` on its right. -/
def EqualToDict (keys : MpKeys K) (equal : V → V → Bool) (ordered plain : MpObjDict K V)
    (orderedPairs plainPairs : List (K × V)) : Prop :=
  ordered.type = .orderedDict ∧ plain.type = .dict ∧ ordered.map.used = plain.map.used ∧
    Covered keys equal orderedPairs plainPairs

/-- A `dict` that is compared with itself and has a value that is not equal to itself. -/
def SelfUnequal (equal : V → V → Bool) (a b : MpObjDict K V) (pairs : List (K × V)) : Prop :=
  a.address = b.address ∧ a.type = .dict ∧ ∃ pair ∈ pairs, equal pair.2 pair.2 = false

omit [DecidableEq K] in
theorem Listed.pairs_eq {map : MpMap K V} (listed : Listed map aPairs) (again : Listed map bPairs) :
    aPairs = bPairs := by
  have injective : Function.Injective fun pair : K × V => (pair.1, some pair.2) := by
    intro one other same
    simpa [Prod.ext_iff] using same
  exact (map_injective_iff.mpr injective) (listed.entries.symm.trans again.entries)

theorem sameContents_self (lawful : keys.orSame.Lawful)
    (apart : aPairs.Pairwise (Assoc.Differ Prod.fst keys.orSame.equal)) :
    SameContents keys equal aPairs aPairs ↔ ∀ pair ∈ aPairs, equal pair.2 pair.2 = true := by
  refine ⟨fun same pair member => ?_, fun selfEqual => ⟨fun pair member => ?_, fun pair member => ?_⟩⟩
  · obtain ⟨other, there, sameKey, sameValue⟩ := same.1 pair member
    rwa [Assoc.only lawful.congruent apart member (lawful.refl pair.1) other there sameKey] at sameValue
  · exact ⟨pair, member, lawful.refl pair.1, selfEqual pair member⟩
  · exact ⟨pair, member, lawful.refl pair.1⟩

theorem equalityAgrees_of_apart (lawful : keys.orSame.Lawful) (aHolds : DictHolds keys a aPairs)
    (bHolds : DictHolds keys b bPairs) (different : a.address ≠ b.address) :
    EqualityAgrees keys equal a b aPairs bPairs ↔
      ((ComparesEqual keys equal a b aPairs bPairs ↔ ComparesEqual keys equal b a bPairs aPairs) ∧
        (a.type = .dict → b.type = .dict →
          (ComparesEqual keys equal a b aPairs bPairs ↔ SameContents keys equal aPairs bPairs))) := by
  obtain ⟨result, ran, isResult⟩ := dictBinaryOpEqual_spec equal lawful aHolds bHolds
  obtain ⟨swapped, ranBack, isSwapped⟩ := dictBinaryOpEqual_spec equal lawful bHolds aHolds
  rw [EqualityAgrees, mpObjEqualDict, mpObjEqualDict, if_neg different, if_neg (Ne.symm different),
    ran, ranBack, ← isResult, ← isSwapped, ← Bool.eq_iff_iff]
  refine ⟨?_, fun ⟨same, contents⟩ => ⟨result, rfl, by rw [same], contents⟩⟩
  rintro ⟨both, isBoth, isBothBack, contents⟩
  obtain rfl := some.inj isBoth
  exact ⟨(some.inj isBothBack).symm, contents⟩

end Equality

theorem MpKeys.Lawful.orSame {K : Type} [DecidableEq K] {keys : MpKeys K} (lawful : keys.Lawful) :
    keys.orSame.Lawful := by
  have unfolded : keys.orSame = keys := by
    have equals : ∀ one other, (decide (one = other) || keys.equal one other) =
        keys.equal one other := by
      intro one other
      by_cases same : one = other
      · rw [same, lawful.refl]
        simp
      · simp [same]
    simp only [MpKeys.orSame, equals]
  rw [unfolded]
  exact lawful

/-- Two keys with one hash, in either order, with their values. -/
def collidingDict (address : Nat) (first second : Nat) : MpObjDict Nat Nat :=
  ⟨address, .dict, ⟨false, false, false, 2, 2,
    [⟨.key first, some (10 * first)⟩, ⟨.key second, some (10 * second)⟩]⟩⟩

theorem collidingDict_holds {first second : Nat} (address : Nat) (differ : first ≠ second)
    (even : first % 2 = 0 ∧ second % 2 = 0) :
    DictHolds numberKeys (collidingDict address first second)
      [(first, 10 * first), (second, 10 * second)] := by
  refine ⟨⟨rfl, rfl⟩, fun _ => .table ⟨rfl, rfl, ?_, ?_, rfl, by simp [collidingDict]⟩⟩
  · intro pos key here
    simp only [collidingDict, map_cons, map_nil] at here ⊢
    rcases pos with _ | _ | pos
    · obtain rfl : first = key := by simpa using here
      exact ⟨0, by simp [place, MpKeys.orSame, numberKeys, even.1], by simp⟩
    · obtain rfl : second = key := by simpa using here
      exact ⟨1, by simp [place, MpKeys.orSame, numberKeys, even.2],
        by simp [place, MpKeys.orSame, numberKeys, even.2]⟩
    · simp at here
  · simp [collidingDict, MpMap.entries, MpMap.slotEntry, Apart, Assoc.Differ, MpKeys.orSame, numberKeys,
      differ]

end MultiPython.Map
