import MultiPython.Context.Tasks

/-!
# Dynamic memory of tasks

The functions that tasks call for memory that belongs to their context. A ledger read as a
list of blocks is an account; the accounts of all contexts together are the books. The
books list every allocated block once, and one lemma for each function says what it does to
them.
-/

namespace MultiPython.Context

open Logic List Function

variable {σ κ : Type}

namespace MpContexts

variable (s : MpContexts σ κ)

def mpDynmemNodeByMem (mem context : Ref) : Option Ref :=
  if mem = 0 then
    some 0
  else if context = 0 then
    some 0
  else do
    let owner ← s.contexts context
    walk MpContextDynmemNode.next s.dynmems (fun node => node.mem == mem) addressSpace owner.memhead

/-- `mp_context_dynmem_free`; the result is the memory and the return value. -/
def mpContextDynmemFree (mem context : Ref) : Option (MpContexts σ κ × Int) :=
  if context = 0 then
    some (s, -1)
  else do
    let node ← s.mpDynmemNodeByMem mem context
    if node = 0 then
      some (s, -1)
    else
      let entry ← s.dynmems node
      if entry.mem ≠ mem then
        some (s, -1)
      else
        let s ← s.mpDynmemRemove node context
        some (s, 0)

def mpTaskAlloc (size tID : Nat) (mallocNode mallocMem : Ref) : Option (MpContexts σ κ × Ref) := do
  let context ← s.mpContextByTid tID
  if context = 0 then
    some (s, 0)
  else
    s.mpContextDynmemAlloc size context mallocNode mallocMem

def mpTaskFree (mem : Ref) (tID : Nat) : Option (MpContexts σ κ × Int) := do
  let context ← s.mpContextByTid tID
  if context = 0 then
    some (s, -1)
  else
    s.mpContextDynmemFree mem context

def mpTaskFreeAll (tID : Nat) : Option (MpContexts σ κ × Int) := do
  let context ← s.mpContextByTid tID
  if context = 0 then
    some (s, -1)
  else
    s.mpContextDynmemFreeAll context

/-- The entries in the ledger of a context. -/
def ledgerList (ref : Ref) : List Ref :=
  follow MpContextDynmemNode.next s.dynmems addressSpace (s.nodeOf ref).memhead

/-- The blocks that ledger entries account for, with their sizes. -/
def book (entries : List Ref) : List (Ref × Nat) :=
  entries.filterMap fun entry => (s.dynmems entry).map MpContextDynmemNode.account

/-- The blocks in the ledger of a context. -/
def accounts (ref : Ref) : List (Ref × Nat) := s.book (s.ledgerList ref)

/-- The blocks in all ledgers. -/
def books (refs : List Ref) (ledger : Ref → List Ref) : List (Ref × Nat) :=
  refs.flatMap fun ref => s.book (ledger ref)

end MpContexts

section Books

variable {s after : MpContexts σ κ} {refs : List Ref} {ledger : Ref → List Ref}

theorem WellLinked.ledgerList_eq (linked : WellLinked s refs ledger) {ref : Ref} (member : ref ∈ refs) :
    s.ledgerList ref = ledger ref := by
  have chain := linked.ledgers ref member
  exact chain.follow_eq (length_lt_of_nodup (linked.ledgerDistinct ref member) chain.ne_zero
    (linked.ledgerBounded ref member) (by decide)).le

theorem WellLinked.accounts_eq (linked : WellLinked s refs ledger) {ref : Ref} (member : ref ∈ refs) :
    s.accounts ref = s.book (ledger ref) := by
  rw [MpContexts.accounts, linked.ledgerList_eq member]

theorem book_congr {entries : List Ref}
    (same : ∀ entry ∈ entries, (after.dynmems entry).map MpContextDynmemNode.account =
      (s.dynmems entry).map MpContextDynmemNode.account) : after.book entries = s.book entries :=
  filterMap_congr same

theorem accountsFor_iff_mem_book {entries : List Ref} {block : Ref} :
    s.accountsFor entries block = true ↔ block ≠ 0 ∧ block ∈ (s.book entries).map Prod.fst := by
  rw [MpContexts.accountsFor_iff]
  refine and_congr_right fun _ => ?_
  simp only [MpContexts.book, List.mem_map, mem_filterMap, Option.map_eq_some_iff]
  constructor
  · rintro ⟨entry, member, node, loaded, isBlock⟩
    exact ⟨node.account, ⟨entry, member, node, loaded, rfl⟩, isBlock⟩
  · rintro ⟨_, ⟨entry, member, node, loaded, rfl⟩, isBlock⟩
    exact ⟨entry, member, node, loaded, isBlock⟩

/-- The books list the allocated blocks, each of them once. -/
structure Booked (s : MpContexts σ κ) (books : List (Ref × Nat)) : Prop where
  once : (books.map Prod.fst).Nodup
  allocated : ∀ block size, s.blocks block = some size ↔ (block, size) ∈ books
  notNull : ∀ entry ∈ books, entry.1 ≠ 0

theorem Booked.perm {books other : List (Ref × Nat)} (booked : Booked s books)
    (same : books.Perm other) : Booked s other := by
  refine ⟨(same.map Prod.fst).nodup_iff.mp booked.once, fun block size => ?_, fun entry member => ?_⟩
  · rw [booked.allocated, same.mem_iff]
  · exact booked.notNull entry (same.mem_iff.mpr member)

theorem Booked.add {books : List (Ref × Nat)} {mem : Ref} {size : Nat} (booked : Booked s books)
    (fresh : s.blocks mem = none) (notNull : mem ≠ 0)
    (blocks : after.blocks = Function.update s.blocks mem (some size)) :
    Booked after ((mem, size) :: books) := by
  have unlisted : ∀ other, (mem, other) ∉ books := by
    intro other member
    rw [← booked.allocated, fresh] at member
    cases member
  refine ⟨?_, fun block other => ?_, ?_⟩
  · rw [map_cons, nodup_cons]
    refine ⟨fun member => ?_, booked.once⟩
    obtain ⟨⟨_, other⟩, listed, rfl⟩ := List.mem_map.mp member
    exact unlisted other listed
  · rw [blocks, mem_cons, Prod.mk.injEq]
    by_cases here : block = mem
    · subst here
      rw [update_self]
      simp [unlisted, eq_comm]
    · rw [update_of_ne here, booked.allocated]
      simp [here]
  · simp only [mem_cons]
    rintro entry (rfl | member)
    · exact notNull
    · exact booked.notNull entry member

theorem Booked.drop {gone rest : List (Ref × Nat)} (booked : Booked s (gone ++ rest))
    (blocks : ∀ block, after.blocks block =
      if block ≠ 0 ∧ block ∈ gone.map Prod.fst then none else s.blocks block) :
    Booked after rest := by
  have once := booked.once
  rw [map_append, nodup_append] at once
  refine ⟨once.2.1, fun block size => ?_, fun entry member =>
    booked.notNull entry (mem_append_right _ member)⟩
  rw [blocks]
  by_cases isGone : block ∈ gone.map Prod.fst
  · have notRest : (block, size) ∉ rest := fun member =>
      once.2.2 block isGone block (List.mem_map_of_mem member) rfl
    have notNull : block ≠ 0 := by
      obtain ⟨entry, member, rfl⟩ := List.mem_map.mp isGone
      exact booked.notNull entry (mem_append_left _ member)
    simp [isGone, notNull, notRest]
  · have notGone : (block, size) ∉ gone := fun member => isGone (List.mem_map_of_mem member)
    rw [if_neg fun both => isGone both.2, booked.allocated, mem_append]
    simp [notGone]

theorem books_perm {ref : Ref} (member : ref ∈ refs) :
    (s.books refs ledger).Perm (s.book (ledger ref) ++ s.books (refs.erase ref) ledger) :=
  (perm_cons_erase member).flatMap_right _

theorem books_congr {other : Ref → List Ref}
    (same : ∀ ref ∈ refs, after.book (other ref) = s.book (ledger ref)) :
    after.books refs other = s.books refs ledger := by
  rw [MpContexts.books, MpContexts.books, flatMap_congr same]

end Books

/-! ## Freeing one block -/

/-- An entry was unlinked from the ledger of a context and freed, and its block with it. -/
structure Released (s : MpContexts σ κ) (refs : List Ref) (ledger : Ref → List Ref) (ref entry : Ref)
    (after : MpContexts σ κ) : Prop where
  linked : WellLinked after refs (Function.update ledger ref ((ledger ref).erase entry))
  others : ∀ other, other ≠ entry → (after.dynmems other).map MpContextDynmemNode.account =
    (s.dynmems other).map MpContextDynmemNode.account
  blocks : ∀ block, after.blocks block =
    if s.accountsFor [entry] block then none else s.blocks block

section

variable {s : MpContexts σ κ} {refs : List Ref} {ledger : Ref → List Ref}
  (linked : WellLinked s refs ledger)

include s refs ledger linked

theorem WellLinked.dynmem_split {ref entry : Ref} (member : ref ∈ refs)
    (inLedger : entry ∈ ledger ref) (notFirst : (s.nodeOf ref).memhead ≠ entry) :
    ∃ early before late, ledger ref = early ++ before :: entry :: late := by
  have chain := linked.ledgers ref member
  obtain ⟨early, late, entries⟩ := append_of_mem inLedger
  cases early using reverseRecOn with
  | nil =>
    rw [entries] at chain
    exact absurd chain.start_eq notFirst
  | append_singleton early before => exact ⟨early, before, late, by simp [entries]⟩

theorem WellLinked.dynmemPredecessor_eq {ref before entry : Ref} {early late : List Ref}
    (member : ref ∈ refs) (entries : ledger ref = early ++ before :: entry :: late) :
    s.mpDynmemPredecessor entry ref = some before := by
  have chain := linked.ledgers ref member
  have distinct := linked.ledgerDistinct ref member
  have short := length_lt_of_nodup distinct chain.ne_zero (linked.ledgerBounded ref member) (by decide)
  rw [entries] at chain distinct short
  have walked := chain.walk_eq (fun node => node.next == entry) short
  rw [chain.find_link distinct] at walked
  simpa [MpContexts.mpDynmemPredecessor, linked.chain.ne_zero ref member, linked.loaded member]
    using walked

/-- `mp_dynmem_remove` of an entry in the ledger of a listed context. -/
theorem mpDynmemRemove_spec {ref entry : Ref} (member : ref ∈ refs) (inLedger : entry ∈ ledger ref) :
    ∃ after, s.mpDynmemRemove entry ref = some after ∧ Released s refs ledger ref entry after := by
  have refNotNull := linked.chain.ne_zero ref member
  have refLoaded := linked.loaded member
  have chain := linked.ledgers ref member
  have distinct := linked.ledgerDistinct ref member
  have entryNotNull := chain.ne_zero entry inLedger
  obtain ⟨node, entryLoaded⟩ := chain.loaded entry inLedger
  have erasedDistinct : ((ledger ref).erase entry).Nodup := distinct.erase entry
  have erasedBounded : ∀ each ∈ (ledger ref).erase entry, each < addressSpace :=
    fun each there => linked.ledgerBounded ref member each (mem_of_mem_erase there)
  have erasedApart : ∀ other ∈ refs, other ≠ ref →
      List.Disjoint ((ledger ref).erase entry) (ledger other) :=
    fun other otherMember different => disjoint_of_subset_left erase_subset
      (linked.ledgersApart ref member other otherMember different.symm)
  have elsewhere : ∀ other ∈ refs, other ≠ ref → ∀ each ∈ ledger other, each ∉ ledger ref :=
    fun other otherMember different each there =>
      linked.ledgersApart other otherMember ref member different there
  by_cases isFirst : (s.nodeOf ref).memhead = entry
  · subst isFirst
    refine ⟨_, mpDynmemRemove_first refNotNull entryNotNull refLoaded entryLoaded, ?_, ?_, ?_⟩
    · refine And.left (b := Kept s refs _) (linked.rewriteLedger member rfl rfl
        ⟨rfl, rfl, rfl, rfl⟩ ?_ erasedDistinct erasedBounded erasedApart ?_)
      · cases entries : ledger ref with
        | nil => simp [entries] at inLedger
        | cons first rest =>
          rw [entries] at chain distinct
          obtain ⟨firstEq, _, found, foundLoaded, tail⟩ := chain.uncons
          rw [firstEq] at entryLoaded ⊢
          obtain rfl := Option.some.inj (entryLoaded.symm.trans foundLoaded)
          rw [erase_cons_head]
          refine tail.congr fun other there => ?_
          have different : other ≠ first := fun same =>
            (nodup_cons.mp distinct).1 (same ▸ there)
          simp [different]
      · intro other otherMember different each there
        have notEntry : each ≠ (s.nodeOf ref).memhead := fun same =>
          elsewhere other otherMember different each there (same ▸ inLedger)
        simp [notEntry]
    · intro other different
      simp [different]
    · exact freed_block entryLoaded
  · obtain ⟨early, before, late, entries⟩ := linked.dynmem_split member inLedger isFirst
    have beforeMem : before ∈ ledger ref := by simp [entries]
    have beforeNotNull := chain.ne_zero before beforeMem
    obtain ⟨beforeNode, beforeLoaded⟩ := chain.loaded before beforeMem
    have moved : (entry :: (early ++ before :: late)).Nodup := by
      have middle : ((early ++ [before]) ++ entry :: late).Nodup := by simpa [entries] using distinct
      simpa using nodup_middle.mp middle
    have apart : before ≠ entry := fun same => (nodup_cons.mp moved).1 (by simp [same])
    have erased : (ledger ref).erase entry = early ++ before :: late := by
      have absent : entry ∉ early ++ [before] := fun there =>
        (nodup_cons.mp moved).1 (by simpa [or_assoc] using Or.inl there)
      have split := erase_append_right (entry :: late) absent
      simpa [entries] using split
    refine ⟨{ s.setDynmem before { beforeNode with next := node.next } with
      blocks := if node.mem = 0 then s.blocks else Function.update s.blocks node.mem none
      dynmems := Function.update (s.setDynmem before { beforeNode with next := node.next }).dynmems
        entry none }, ?_, ?_, ?_, ?_⟩
    · simp [MpContexts.mpDynmemRemove, MpContexts.setDynmem, entryNotNull, refNotNull, refLoaded,
        entryLoaded, isFirst, linked.dynmemPredecessor_eq member entries, beforeNotNull, beforeLoaded]
    · have unchanged : s.contexts = Function.update s.contexts ref
          (some { s.nodeOf ref with memhead := (s.nodeOf ref).memhead }) := by
        rw [show { s.nodeOf ref with memhead := (s.nodeOf ref).memhead } = s.nodeOf ref from rfl,
          ← refLoaded, update_eq_self]
      refine And.left (b := Kept s refs _) (linked.rewriteLedger member unchanged rfl
        ⟨rfl, rfl, rfl, rfl⟩ ?_ erasedDistinct erasedBounded erasedApart ?_)
      · rw [erased]
        rw [entries] at chain
        refine chain.unlink ?_ fun other there => ?_
        · simp [MpContexts.setDynmem, apart, entryLoaded]
        · have notEntry : other ≠ entry := by
            rintro rfl
            refine (nodup_cons.mp moved).1 ?_
            rcases mem_append.mp there with there | there <;> simp [there]
          have notBefore : other ≠ before := by
            rintro rfl
            exact (nodup_cons.mp (nodup_middle.mp (nodup_cons.mp moved).2)).1 there
          simp [MpContexts.setDynmem, notEntry, notBefore]
      · intro other otherMember different each there
        have notIn := elsewhere other otherMember different each there
        have notEntry : each ≠ entry := fun same => notIn (same ▸ inLedger)
        have notBefore : each ≠ before := fun same => notIn (same ▸ beforeMem)
        simp [MpContexts.setDynmem, notEntry, notBefore]
    · intro other different
      by_cases isBefore : other = before
      · simp [isBefore, apart, MpContexts.setDynmem, beforeLoaded, MpContextDynmemNode.account]
      · simp [different, isBefore, MpContexts.setDynmem]
    · exact freed_block entryLoaded

end

end MultiPython.Context
