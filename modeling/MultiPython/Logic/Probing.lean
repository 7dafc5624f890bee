import Mathlib

/-!
# Open addressing

A table with open addressing is searched from the place that the hash of a key names,
around the table, until the key or an unused slot is found. `scan` is one walk around the
table, and `Scanned` is what its result says about the slots. `Reaches` is the invariant
that makes the walk find every key: no unused slot lies between the place that a key's hash
names and its slot. The lemmas after it say which changes of a slot keep it.
-/

namespace MultiPython.Logic

open List

variable {α β γ : Type*}

/-- A slot of the table: unused, emptied, or with a key. -/
inductive Slot (α : Type*) where
  | null
  | sentinel
  | key (key : α)
deriving DecidableEq, Repr

/-- How a walk around a table ends: at an unused slot, at a key, or where it started. The
first emptied slot on the way is remembered. -/
inductive Scan where
  | empty (pos : Nat) (avail : Option Nat)
  | found (pos : Nat)
  | circled (avail : Option Nat)
deriving DecidableEq, Repr

/-- Walk around a table of `alloc` slots to a key that meets the test. The walk fails when it
leaves the table, or runs out of fuel. -/
def scan (test : α → Bool) (slots : List (Slot α)) (alloc start : Nat) :
    Nat → Nat → Option Nat → Option Scan
  | 0, _, _ => none
  | fuel + 1, pos, avail =>
    match slots[pos]? with
    | none => none
    | some .null => some (.empty pos avail)
    | some .sentinel =>
      if (pos + 1) % alloc = start then
        some (.circled (avail.or (some pos)))
      else
        scan test slots alloc start fuel ((pos + 1) % alloc) (avail.or (some pos))
    | some (.key key) =>
      if test key then
        some (.found pos)
      else if (pos + 1) % alloc = start then
        some (.circled avail)
      else
        scan test slots alloc start fuel ((pos + 1) % alloc) avail

/-- The position that a walk comes to after some steps. -/
def place (slots : List β) (start steps : Nat) : Nat := (start + steps) % slots.length

section Scanning

variable {test : α → Bool} {slots : List (Slot α)} {start : Nat}

/-- The first slots of a walk are in use, and no key in them meets the test. -/
structure Passed (test : α → Bool) (slots : List (Slot α)) (start count : Nat) : Prop where
  used : ∀ steps < count, slots[place slots start steps]? ≠ some .null
  other : ∀ steps < count, ∀ key, slots[place slots start steps]? = some (.key key) →
    test key = false

/-- What is known of the emptied slot that a walk remembers. -/
def Remembers (slots : List (Slot α)) (start count : Nat) : Option Nat → Prop
  | none => ∀ steps < count, slots[place slots start steps]? ≠ some .sentinel
  | some pos => ∃ steps < count, pos = place slots start steps ∧ slots[pos]? = some .sentinel

/-- What the result of a walk says about the slots. -/
def Scanned (test : α → Bool) (slots : List (Slot α)) (start : Nat) : Scan → Prop
  | .empty pos avail => ∃ count < slots.length, pos = place slots start count ∧
      slots[pos]? = some .null ∧ Passed test slots start count ∧ Remembers slots start count avail
  | .found pos => ∃ key, slots[pos]? = some (.key key) ∧ test key = true
  | .circled avail => Passed test slots start slots.length ∧
      Remembers slots start slots.length avail

theorem place_lt (inside : 0 < slots.length) (steps : Nat) : place slots start steps < slots.length :=
  Nat.mod_lt _ inside

theorem place_succ (steps : Nat) :
    (place slots start steps + 1) % slots.length = place slots start (steps + 1) := by
  rw [place, place, Nat.mod_add_mod, Nat.add_assoc]

/-- A walk comes back to its start after as many steps as there are slots. -/
theorem place_eq_start (inside : start < slots.length) {steps : Nat} (positive : 0 < steps)
    (within : steps ≤ slots.length) : place slots start steps = start ↔ steps = slots.length := by
  unfold place
  constructor
  · intro back
    by_contra short
    by_cases wraps : start + steps < slots.length
    · rw [Nat.mod_eq_of_lt wraps] at back
      omega
    · rw [Nat.mod_eq_sub_mod (by omega), Nat.mod_eq_of_lt (by omega)] at back
      omega
  · rintro rfl
    rw [Nat.add_mod_right, Nat.mod_eq_of_lt inside]

/-- A walk around the table comes to every slot. -/
theorem exists_place (inside : start < slots.length) {pos : Nat} (within : pos < slots.length) :
    ∃ steps < slots.length, place slots start steps = pos := by
  unfold place
  by_cases ahead : start ≤ pos
  · refine ⟨pos - start, by omega, ?_⟩
    rw [Nat.add_sub_cancel' ahead, Nat.mod_eq_of_lt within]
  · refine ⟨pos + slots.length - start, by omega, ?_⟩
    rw [show start + (pos + slots.length - start) = pos + slots.length by omega, Nat.add_mod_right,
      Nat.mod_eq_of_lt within]

variable {count : Nat}

theorem Passed.succ (passed : Passed test slots start count)
    (used : slots[place slots start count]? ≠ some .null)
    (other : ∀ key, slots[place slots start count]? = some (.key key) → test key = false) :
    Passed test slots start (count + 1) := by
  constructor
  · intro steps within
    rcases Nat.lt_succ_iff_lt_or_eq.mp within with before | rfl
    · exact passed.used steps before
    · exact used
  · intro steps within
    rcases Nat.lt_succ_iff_lt_or_eq.mp within with before | rfl
    · exact passed.other steps before
    · exact other

variable {avail : Option Nat}

/-- The first emptied slot is remembered. -/
theorem Remembers.sentinel (remembers : Remembers slots start count avail)
    (here : slots[place slots start count]? = some .sentinel) :
    Remembers slots start (count + 1) (avail.or (some (place slots start count))) := by
  cases avail with
  | none => exact ⟨count, by omega, rfl, here⟩
  | some pos =>
    obtain ⟨steps, within, isPlace, emptied⟩ := remembers
    exact ⟨steps, by omega, isPlace, emptied⟩

theorem Remembers.other (remembers : Remembers slots start count avail)
    (here : slots[place slots start count]? ≠ some .sentinel) :
    Remembers slots start (count + 1) avail := by
  cases avail with
  | none =>
    intro steps within
    rcases Nat.lt_succ_iff_lt_or_eq.mp within with before | rfl
    · exact remembers steps before
    · exact here
  | some pos =>
    obtain ⟨steps, within, isPlace, emptied⟩ := remembers
    exact ⟨steps, by omega, isPlace, emptied⟩

/-- A walk that came back to its start and remembers no emptied slot has met only keys. -/
theorem Passed.only_keys (inside : start < slots.length)
    (passed : Passed test slots start slots.length)
    (remembers : Remembers slots start slots.length none) {slot : Slot α} (member : slot ∈ slots) :
    ∃ key, slot = .key key := by
  obtain ⟨pos, here⟩ := mem_iff_getElem?.mp member
  obtain ⟨within, _⟩ := List.getElem?_eq_some_iff.mp here
  obtain ⟨steps, less, rfl⟩ := exists_place inside within
  cases slot with
  | null => exact absurd here (passed.used steps less)
  | sentinel => exact absurd here (remembers steps less)
  | key key => exact ⟨key, rfl⟩

/-- The rest of a walk. -/
theorem scan_from (inside : start < slots.length) (within : count < slots.length)
    (passed : Passed test slots start count) (remembers : Remembers slots start count avail)
    {fuel : Nat} (enough : slots.length ≤ count + fuel) :
    ∃ result, scan test slots slots.length start fuel (place slots start count) avail = some result ∧
      Scanned test slots start result := by
  induction fuel generalizing count avail with
  | zero => omega
  | succ fuel ih =>
    -- One more slot was passed: the walk is back where it started, or goes on.
    have goOn : ∀ {next : Option Nat}, Passed test slots start (count + 1) →
        Remembers slots start (count + 1) next →
        ∃ result, (if (place slots start count + 1) % slots.length = start then
            some (Scan.circled next)
          else
            scan test slots slots.length start fuel
              ((place slots start count + 1) % slots.length) next) = some result ∧
          Scanned test slots start result := by
      intro next passedNext remembersNext
      rw [place_succ]
      by_cases back : place slots start (count + 1) = start
      · have all := (place_eq_start inside (Nat.succ_pos count) within).mp back
        rw [if_pos back]
        exact ⟨_, rfl, all ▸ passedNext, all ▸ remembersNext⟩
      · have more : count + 1 ≠ slots.length := fun all =>
          back ((place_eq_start inside (Nat.succ_pos count) within).mpr all)
        rw [if_neg back]
        exact ih (by omega) passedNext remembersNext (by omega)
    have there : place slots start count < slots.length := place_lt (Nat.zero_lt_of_lt inside) count
    unfold scan
    cases here : slots[place slots start count]? with
    | none =>
      rw [List.getElem?_eq_getElem there] at here
      cases here
    | some slot =>
      cases slot with
      | null => exact ⟨_, rfl, count, within, rfl, here, passed, remembers⟩
      | sentinel =>
        exact goOn (passed.succ (by simp [here]) (by simp [here])) (remembers.sentinel here)
      | key key =>
        by_cases isTested : test key = true
        · simp only [isTested, if_true]
          exact ⟨_, rfl, key, here, isTested⟩
        · simp only [isTested]
          refine goOn (passed.succ (by simp [here]) fun other same => ?_)
            (remembers.other (by simp [here]))
          rw [here] at same
          cases same
          exact Bool.eq_false_iff.mpr isTested

/-- A walk around a table that is not empty ends. -/
theorem scan_spec (inside : start < slots.length) :
    ∃ result, scan test slots slots.length start slots.length start none = some result ∧
      Scanned test slots start result := by
  have atStart : place slots start 0 = start := Nat.mod_eq_of_lt inside
  have passed : Passed test slots start 0 := ⟨by simp, by simp⟩
  have remembers : Remembers slots start 0 none := by simp [Remembers]
  have enough : slots.length ≤ 0 + slots.length := by simp
  have walked := scan_from inside (Nat.zero_lt_of_lt inside) passed remembers enough
  rwa [atStart] at walked

end Scanning

/-! ## Finding every key -/

section Reaching

variable {hash : α → Nat} {slots : List (Slot α)}

/-- No unused slot lies between the place that the hash of a key names and its slot. -/
def Reaches (hash : α → Nat) (slots : List (Slot α)) : Prop :=
  ∀ pos key, slots[pos]? = some (.key key) → ∃ count, pos = place slots (hash key) count ∧
    ∀ steps < count, slots[place slots (hash key) steps]? ≠ some .null

theorem place_mod (start steps : Nat) :
    place slots (start % slots.length) steps = place slots start steps :=
  Nat.mod_add_mod _ _ _

variable {test : α → Bool} {key : α}

/-- A walk that ends at an unused slot has passed every key with the same hash. -/
theorem Reaches.absent_of_empty {start count : Nat} (reaches : Reaches hash slots)
    (unused : slots[place slots start count]? = some .null) (passed : Passed test slots start count)
    {pos : Nat} (here : slots[pos]? = some (.key key)) (sameHash : hash key % slots.length = start) :
    test key = false := by
  obtain ⟨steps, rfl, before⟩ := reaches pos key here
  rw [← place_mod, sameHash] at here
  rcases Nat.lt_trichotomy steps count with less | rfl | more
  · exact passed.other steps less key here
  · rw [unused] at here
    cases here
  · have used := before count more
    rw [← place_mod, sameHash] at used
    exact absurd unused used

/-- A walk all around the table has passed every key. -/
theorem Passed.absent_of_circled {start : Nat} (passed : Passed test slots start slots.length)
    (reaches : Reaches hash slots) {pos : Nat} (here : slots[pos]? = some (.key key))
    (sameHash : hash key % slots.length = start) : test key = false := by
  obtain ⟨steps, rfl, _⟩ := reaches pos key here
  have inside : 0 < slots.length := by
    by_contra empty
    simp [eq_nil_of_length_eq_zero (Nat.eq_zero_of_not_pos empty)] at here
  rw [← place_mod, sameHash] at here
  have around : place slots start steps = place slots start (steps % slots.length) := by
    unfold place
    rw [Nat.add_mod_mod]
  rw [around] at here
  exact passed.other _ (Nat.mod_lt _ inside) key here

theorem place_set (pos : Nat) (slot : Slot α) (start steps : Nat) :
    place (slots.set pos slot) start steps = place slots start steps := by
  rw [place, place, length_set]

/-- A new key may be put in an emptied slot on its walk, or in the unused slot at its end. -/
theorem Reaches.insert {count : Nat} (reaches : Reaches hash slots)
    (used : ∀ steps < count, slots[place slots (hash key) steps]? ≠ some .null) :
    Reaches hash (slots.set (place slots (hash key) count) (.key key)) := by
  have stillUsed : ∀ {other : Nat}, slots[other]? ≠ some .null →
      (slots.set (place slots (hash key) count) (.key key))[other]? ≠ some .null := by
    intro other before
    rw [List.getElem?_set]
    split
    · split <;> simp
    · exact before
  intro pos other here
  rw [List.getElem?_set] at here
  simp only [place_set]
  split at here
  case isTrue isHere =>
    split at here
    case isTrue =>
      cases here
      exact ⟨count, isHere.symm, fun steps less => stillUsed (used steps less)⟩
    case isFalse => cases here
  case isFalse =>
    obtain ⟨steps, isPlace, before⟩ := reaches pos other here
    exact ⟨steps, isPlace, fun less within => stillUsed (before less within)⟩

/-- A slot may be emptied. -/
theorem Reaches.set_sentinel (reaches : Reaches hash slots) (pos : Nat) :
    Reaches hash (slots.set pos .sentinel) := by
  intro other key here
  rw [List.getElem?_set] at here
  split at here
  · split at here <;> cases here
  · obtain ⟨count, isPlace, before⟩ := reaches other key here
    simp only [place_set]
    refine ⟨count, isPlace, fun steps within => ?_⟩
    rw [List.getElem?_set]
    split
    · split <;> simp
    · exact before steps within

/-- A slot in front of an unused one may become unused. -/
theorem Reaches.set_null (reaches : Reaches hash slots) {pos : Nat}
    (next : slots[(pos + 1) % slots.length]? = some .null) :
    Reaches hash (slots.set pos .null) := by
  intro other key here
  rw [List.getElem?_set] at here
  split at here
  · split at here <;> cases here
  · obtain ⟨count, rfl, before⟩ := reaches other key here
    simp only [place_set]
    refine ⟨count, rfl, fun steps within => ?_⟩
    -- If the walk passed the slot, the unused slot after it would be on the walk too.
    have elsewhere : pos ≠ place slots (hash key) steps := by
      rintro rfl
      rw [place_succ] at next
      rcases Nat.lt_or_ge (steps + 1) count with less | last
      · exact before (steps + 1) less next
      · obtain rfl : steps + 1 = count := by omega
        rw [next] at here
        cases here
    rw [List.getElem?_set_ne elsewhere]
    exact before steps within

/-- There is no key in a new table. -/
theorem Reaches.replicate (alloc : Nat) : Reaches hash (List.replicate alloc (.null : Slot α)) := by
  intro pos key here
  rw [List.getElem?_replicate] at here
  split at here <;> cases here

/-- A slot without a key, to which the walk for a key comes past slots that are in use. -/
structure FreeFor (hash : α → Nat) (slots : List (Slot α)) (index : α) (pos : Nat) : Prop where
  onWalk : ∃ count, pos = place slots (hash index) count ∧
    ∀ steps < count, slots[place slots (hash index) steps]? ≠ some .null
  free : ∃ slot, slots[pos]? = some slot ∧ ∀ key, slot ≠ .key key

variable {index : α}

/-- A new key may be put in a slot that is free for it. -/
theorem Reaches.insert_free {pos : Nat} (reaches : Reaches hash slots)
    (free : FreeFor hash slots index pos) : Reaches hash (slots.set pos (.key index)) := by
  obtain ⟨count, rfl, before⟩ := free.onWalk
  exact reaches.insert before

/-- What a walk finds out about a key: where it is, or where it may be put, or that there is
no slot for it. -/
inductive Located (hash : α → Nat) (test : α → Bool) (slots : List (Slot α)) (index : α) :
    Scan → Prop where
  | found {pos key} (here : slots[pos]? = some (.key key)) (same : test key = true) :
      Located hash test slots index (.found pos)
  | empty {pos avail} (absent : ∀ key, .key key ∈ slots → test key = false)
      (free : FreeFor hash slots index (avail.getD pos)) :
      Located hash test slots index (.empty pos avail)
  | circled {pos} (absent : ∀ key, .key key ∈ slots → test key = false)
      (free : FreeFor hash slots index pos) : Located hash test slots index (.circled (some pos))
  | full (absent : ∀ key, .key key ∈ slots → test key = false)
      (full : ∀ slot ∈ slots, ∃ key, slot = .key key) :
      Located hash test slots index (.circled none)

/-- An emptied slot that a walk remembers is free for the key. -/
theorem Passed.freeFor_sentinel {count avail : Nat}
    (passed : Passed test slots (hash index % slots.length) count)
    (remembers : Remembers slots (hash index % slots.length) count (some avail)) :
    FreeFor hash slots index avail := by
  obtain ⟨steps, within, isPlace, here⟩ := remembers
  rw [place_mod] at isPlace
  refine ⟨⟨steps, isPlace, fun less more => ?_⟩, .sentinel, here, by simp⟩
  rw [← place_mod]
  exact passed.used less (by omega)

/-- The unused slot at the end of a walk is free for the key, or an emptied slot before it. -/
theorem Passed.freeFor_null {count : Nat} {avail : Option Nat}
    (passed : Passed test slots (hash index % slots.length) count)
    (remembers : Remembers slots (hash index % slots.length) count avail)
    (unused : slots[place slots (hash index % slots.length) count]? = some .null) :
    FreeFor hash slots index (avail.getD (place slots (hash index % slots.length) count)) := by
  cases avail with
  | some avail => exact passed.freeFor_sentinel remembers
  | none =>
    refine ⟨⟨count, place_mod _ _, fun steps within => ?_⟩, .null, unused, by simp⟩
    rw [← place_mod]
    exact passed.used steps within

/-- A walk from the place that the hash of a key names ends, and finds a key that passes the
test if all such keys have the same hash. -/
theorem Reaches.scan_located (reaches : Reaches hash slots) (inside : 0 < slots.length)
    (sameHash : ∀ key, .key key ∈ slots → test key = true → hash key = hash index) :
    ∃ result, scan test slots slots.length (hash index % slots.length) slots.length
        (hash index % slots.length) none = some result ∧ Located hash test slots index result := by
  have start : hash index % slots.length < slots.length := Nat.mod_lt _ inside
  obtain ⟨result, ended, scanned⟩ := scan_spec start
  refine ⟨result, ended, ?_⟩
  have absentOf : (∀ {pos : Nat} {key : α}, slots[pos]? = some (.key key) →
      hash key % slots.length = hash index % slots.length → test key = false) →
      ∀ key, .key key ∈ slots → test key = false := by
    intro passed key member
    by_contra tested
    obtain ⟨pos, here⟩ := mem_iff_getElem?.mp member
    exact tested (passed here (by rw [sameHash key member (Bool.not_eq_false _ ▸ tested)]))
  cases result with
  | found pos =>
    obtain ⟨key, here, tested⟩ := scanned
    exact .found here tested
  | empty pos avail =>
    obtain ⟨count, _, rfl, unused, passed, remembers⟩ := scanned
    exact .empty (absentOf fun here same => reaches.absent_of_empty unused passed here same)
      (passed.freeFor_null remembers unused)
  | circled avail =>
    obtain ⟨passed, remembers⟩ := scanned
    have absent := absentOf fun here same => passed.absent_of_circled reaches here same
    cases avail with
    | some avail => exact .circled absent (passed.freeFor_sentinel remembers)
    | none => exact .full absent fun slot member => passed.only_keys start remembers member

/-- Where a walk ends, whatever the test is: at a key that passes it, at a slot that is free
for the key, or all around a table that is full. -/
inductive Ended (hash : α → Nat) (test : α → Bool) (slots : List (Slot α)) (index : α) :
    Scan → Prop where
  | found {pos key} (here : slots[pos]? = some (.key key)) (same : test key = true) :
      Ended hash test slots index (.found pos)
  | empty {pos avail} (free : FreeFor hash slots index (avail.getD pos)) :
      Ended hash test slots index (.empty pos avail)
  | circled {pos} (free : FreeFor hash slots index pos) :
      Ended hash test slots index (.circled (some pos))
  | full (full : ∀ slot ∈ slots, ∃ key, slot = .key key) :
      Ended hash test slots index (.circled none)

/-- Every walk ends in one of these ways. -/
theorem scan_ended (hash : α → Nat) (slots : List (Slot α)) (test : α → Bool) (index : α)
    (inside : 0 < slots.length) :
    ∃ result, scan test slots slots.length (hash index % slots.length) slots.length
        (hash index % slots.length) none = some result ∧ Ended hash test slots index result := by
  have start : hash index % slots.length < slots.length := Nat.mod_lt _ inside
  obtain ⟨result, ended, scanned⟩ := scan_spec start
  refine ⟨result, ended, ?_⟩
  cases result with
  | found pos =>
    obtain ⟨key, here, tested⟩ := scanned
    exact .found here tested
  | empty pos avail =>
    obtain ⟨count, _, rfl, unused, passed, remembers⟩ := scanned
    exact .empty (passed.freeFor_null remembers unused)
  | circled avail =>
    obtain ⟨passed, remembers⟩ := scanned
    cases avail with
    | some avail => exact .circled (passed.freeFor_sentinel remembers)
    | none => exact .full fun slot member => passed.only_keys start remembers member

end Reaching

/-! ## Lists with one slot changed -/

/-- What the slots of a table yield changes at the changed slot only. -/
theorem filterMap_set_perm (pick : β → Option γ) {slots : List β} {pos : Nat} {old : β}
    (here : slots[pos]? = some old) (new : β) :
    ((pick old).toList ++ (slots.set pos new).filterMap pick).Perm
      ((pick new).toList ++ slots.filterMap pick) := by
  obtain ⟨inside, rfl⟩ := List.getElem?_eq_some_iff.mp here
  have before : slots = slots.take pos ++ slots[pos] :: slots.drop (pos + 1) := by
    rw [getElem_cons_drop, take_append_drop]
  have oldSplit : slots.filterMap pick =
      (slots.take pos).filterMap pick ++ ((pick slots[pos]).toList ++
        (slots.drop (pos + 1)).filterMap pick) := by
    conv_lhs => rw [before, filterMap_append, filterMap_cons]
    cases pick slots[pos] <;> rfl
  have newSplit : (slots.set pos new).filterMap pick =
      (slots.take pos).filterMap pick ++ ((pick new).toList ++
        (slots.drop (pos + 1)).filterMap pick) := by
    rw [set_eq_take_append_cons_drop, if_pos inside, filterMap_append, filterMap_cons]
    cases pick new <;> rfl
  rw [oldSplit, newSplit]
  exact (perm_append_comm_assoc _ _ _).trans
    (((perm_append_comm_assoc _ _ _).append_left _).trans (perm_append_comm_assoc _ _ _))

end MultiPython.Logic
