import MultiPython.Context.Links

/-!
# The ledgers of dynamic memory

What the functions of `py/mpstate.c` that change a ledger leave behind: an
allocation makes one ledger longer, and `mp_context_dynmem_free_all` empties it.
The list of contexts is the same after both.
-/

namespace MultiPython.Context

open Logic List Function

variable {σ κ : Type}

/-! ## Freeing a ledger -/

/-- One of the entries accounts for a block. -/
def MpContexts.accountsFor (s : MpContexts σ κ) (entries : List Ref) (block : Ref) : Bool :=
  block != 0 && entries.any fun entry => (s.dynmems entry).map MpContextDynmemNode.mem == some block

theorem MpContexts.accountsFor_iff {s : MpContexts σ κ} {entries : List Ref} {block : Ref} :
    s.accountsFor entries block = true ↔
      block ≠ 0 ∧ ∃ entry ∈ entries, (s.dynmems entry).map MpContextDynmemNode.mem = some block := by
  simp [accountsFor]

theorem MpContexts.accountsFor_congr {s after : MpContexts σ κ} {entries : List Ref}
    (same : ∀ entry ∈ entries, after.dynmems entry = s.dynmems entry) (block : Ref) :
    after.accountsFor entries block = s.accountsFor entries block := by
  rw [Bool.eq_iff_iff, accountsFor_iff, accountsFor_iff]
  refine and_congr_right fun _ => ⟨?_, ?_⟩
  · rintro ⟨entry, member, accounts⟩
    exact ⟨entry, member, same entry member ▸ accounts⟩
  · rintro ⟨entry, member, accounts⟩
    exact ⟨entry, member, (same entry member).symm ▸ accounts⟩

/-- The ledger of a context was freed. -/
structure LedgerFreed (s : MpContexts σ κ) (ref : Ref) (owner : MpContextNode) (entries : List Ref)
    (after : MpContexts σ κ) : Prop where
  contexts : after.contexts = Function.update s.contexts ref (some { owner with memhead := 0 })
  freed : ∀ entry ∈ entries, after.dynmems entry = none
  others : ∀ entry, entry ∉ entries → after.dynmems entry = s.dynmems entry
  blocks : ∀ block, after.blocks block = if s.accountsFor entries block then none else s.blocks block
  states : after.states = s.states
  globals : SameGlobals s after

variable {entry : MpContextDynmemNode}

theorem mpDynmemRemove_first {s : MpContexts σ κ} {ref : Ref} {owner : MpContextNode}
    (notNull : ref ≠ 0) (entryNotNull : owner.memhead ≠ 0) (loaded : s.contexts ref = some owner)
    (entryLoaded : s.dynmems owner.memhead = some entry) :
    s.mpDynmemRemove owner.memhead ref = some
      { s with
        contexts := Function.update s.contexts ref (some { owner with memhead := entry.next })
        dynmems := Function.update s.dynmems owner.memhead none
        blocks := if entry.mem = 0 then s.blocks else Function.update s.blocks entry.mem none } := by
  simp [MpContexts.mpDynmemRemove, MpContexts.setContext, notNull, entryNotNull, loaded, entryLoaded]

theorem freed_block {s : MpContexts σ κ} {ref : Ref} (loaded : s.dynmems ref = some entry)
    (block : Ref) :
    (if entry.mem = 0 then s.blocks else Function.update s.blocks entry.mem none) block =
      if s.accountsFor [ref] block then none else s.blocks block := by
  by_cases isNull : entry.mem = 0
  · have nothing : s.accountsFor [ref] block = false := by
      simp only [MpContexts.accountsFor, any_cons, any_nil, Bool.or_false, loaded,
        Option.map_some, isNull]
      cases block <;> simp
    simp [isNull, nothing]
  · by_cases here : block = entry.mem
    · have accounted : s.accountsFor [ref] block = true := by
        simp [MpContexts.accountsFor, loaded, here, isNull]
      rw [if_neg isNull, accounted, here]
      simp
    · have elsewhere : s.accountsFor [ref] block = false := by
        simp [MpContexts.accountsFor, loaded, Ne.symm here]
      rw [if_neg isNull, elsewhere, update_of_ne here]
      rfl

section

variable {s : MpContexts σ κ} {ref : Ref} {owner : MpContextNode} {entries : List Ref}
  (notNull : ref ≠ 0) (loaded : s.contexts ref = some owner)
  (chain : Chain MpContextDynmemNode.next s.dynmems owner.memhead entries)
  (distinct : entries.Nodup)

include s ref owner entries notNull loaded chain distinct

/-- The loop of `mp_context_dynmem_free_all` empties the ledger. -/
theorem mpDynmemFreeLoop_spec {fuel : Nat} (enough : entries.length < fuel) :
    ∃ after, MpContexts.mpDynmemFreeLoop fuel s ref = some after ∧
      LedgerFreed s ref owner entries after := by
  -- Each round frees the first entry; what is left of the chain does not contain it.
  induction entries generalizing s owner fuel with
  | nil =>
    obtain ⟨fuel, rfl⟩ : ∃ more, fuel = more + 1 := ⟨fuel - 1, by omega⟩
    have ended : owner.memhead = 0 := chain.start_eq
    have unchanged : some { owner with memhead := 0 } = s.contexts ref := by
      rw [loaded, ← ended]
    refine ⟨s, by simp [MpContexts.mpDynmemFreeLoop, loaded, ended], ?_, by simp,
      fun _ _ => rfl, by simp [MpContexts.accountsFor], rfl, .refl s⟩
    rw [unchanged, update_eq_self]
  | cons first rest ih =>
    rw [length_cons] at enough
    obtain ⟨fuel, rfl⟩ : ∃ more, fuel = more + 1 := ⟨fuel - 1, by omega⟩
    obtain ⟨firstEq, firstNotNull, entry, entryLoaded, tail⟩ := chain.uncons
    obtain ⟨notLater, restDistinct⟩ := nodup_cons.mp distinct
    subst firstEq
    let middle : MpContexts σ κ :=
      { s with
        contexts := Function.update s.contexts ref (some { owner with memhead := entry.next })
        dynmems := Function.update s.dynmems owner.memhead none
        blocks := if entry.mem = 0 then s.blocks else Function.update s.blocks entry.mem none }
    have removed : s.mpDynmemRemove owner.memhead ref = some middle :=
      mpDynmemRemove_first notNull firstNotNull loaded entryLoaded
    have unchanged : ∀ other, other ≠ owner.memhead → middle.dynmems other = s.dynmems other :=
      fun other different => update_of_ne different _ _
    have elsewhere : ∀ other ∈ rest, other ≠ owner.memhead :=
      fun other member same => notLater (same ▸ member)
    obtain ⟨after, ran, freed⟩ := ih (s := middle) (update_self _ _ _)
      (tail.congr fun other member => by rw [unchanged other (elsewhere other member)])
      restDistinct (show rest.length < fuel by omega)
    refine ⟨after, ?_, ?_, ?_, ?_, fun block => ?_, freed.states,
      ⟨freed.globals.1, freed.globals.2, freed.globals.3, freed.globals.4⟩⟩
    · simpa [MpContexts.mpDynmemFreeLoop, loaded, firstNotNull, removed] using ran
    · rw [freed.contexts]
      simp [middle]
    · intro other member
      rcases mem_cons.mp member with rfl | member
      · rw [freed.others _ notLater]
        exact update_self _ _ _
      · exact freed.freed other member
    · intro other absent
      rw [mem_cons, not_or] at absent
      rw [freed.others other absent.2, unchanged other absent.1]
    · have later : middle.accountsFor rest block = s.accountsFor rest block :=
        MpContexts.accountsFor_congr (fun other member =>
          unchanged other (elsewhere other member)) block
      have first : middle.blocks block = _ := freed_block entryLoaded block
      have split : s.accountsFor (owner.memhead :: rest) block =
          (s.accountsFor rest block || s.accountsFor [owner.memhead] block) := by
        simp only [MpContexts.accountsFor, any_cons, any_nil, Bool.or_false]
        cases block != 0 <;> simp [Bool.or_comm]
      rw [freed.blocks block, later, split, first]
      cases s.accountsFor rest block <;> simp

theorem mpContextDynmemFreeAll_spec (bounded : ∀ entry ∈ entries, entry < addressSpace) :
    ∃ after code, s.mpContextDynmemFreeAll ref = some (after, code) ∧
      LedgerFreed s ref owner entries after := by
  by_cases empty : owner.memhead = 0
  · have noEntries : entries = [] := by
      cases entries with
      | nil => rfl
      | cons first rest =>
        obtain ⟨firstEq, firstNotNull, _⟩ := chain.uncons
        exact absurd (firstEq ▸ empty) firstNotNull
    have unchanged : some { owner with memhead := 0 } = s.contexts ref := by
      rw [loaded, ← empty]
    refine ⟨s, -1, by simp [MpContexts.mpContextDynmemFreeAll, notNull, loaded, empty], ?_,
      by simp [noEntries], fun _ _ => rfl, by simp [noEntries, MpContexts.accountsFor], rfl, .refl s⟩
    rw [unchanged, update_eq_self]
  · have short : entries.length < addressSpace :=
      length_lt_of_nodup distinct chain.ne_zero bounded (by decide)
    obtain ⟨after, ran, freed⟩ := mpDynmemFreeLoop_spec notNull loaded chain distinct short
    exact ⟨after, 0, by simp [MpContexts.mpContextDynmemFreeAll, notNull, loaded, empty, ran], freed⟩

end

/-! ## Allocating -/

/-- The contexts are the same, apart from the ledgers. -/
structure Kept (s : MpContexts σ κ) (refs : List Ref) (after : MpContexts σ κ) : Prop where
  linked : ∃ ledger, WellLinked after refs ledger
  others : ∀ other ∈ refs, SameButLinks (s.nodeOf other) (after.nodeOf other)
  globals : SameGlobals s after

/-- One ledger changes, and with it at most the link to its first entry. -/
theorem WellLinked.rewriteLedger {s after : MpContexts σ κ} {refs : List Ref}
    {ledger : Ref → List Ref} (linked : WellLinked s refs ledger) {ref head : Ref}
    {entries : List Ref} (member : ref ∈ refs)
    (contexts : after.contexts =
      Function.update s.contexts ref (some { s.nodeOf ref with memhead := head }))
    (states : after.states = s.states) (globals : SameGlobals s after)
    (chain : Chain MpContextDynmemNode.next after.dynmems head entries) (distinct : entries.Nodup)
    (bounded : ∀ entry ∈ entries, entry < addressSpace)
    (apart : ∀ other ∈ refs, other ≠ ref → List.Disjoint entries (ledger other))
    (dynmems : ∀ other ∈ refs, other ≠ ref → ∀ entry ∈ ledger other,
      after.dynmems entry = s.dynmems entry) :
    WellLinked after refs (Function.update ledger ref entries) ∧ Kept s refs after := by
  have atRef : after.nodeOf ref = { s.nodeOf ref with memhead := head } := by
    simp [MpContexts.nodeOf, contexts]
  have atOther : ∀ other, other ≠ ref → after.nodeOf other = s.nodeOf other := by
    intro other different
    simp [MpContexts.nodeOf, contexts, different]
  have others : ∀ other ∈ refs, SameButLinks (s.nodeOf other) (after.nodeOf other) := by
    intro other _
    by_cases here : other = ref
    · rw [here, atRef]
      rfl
    · rw [atOther other here]
      exact .refl _
  have rewritten : ∀ other, other ≠ ref → Function.update ledger ref entries other = ledger other :=
    fun other different => update_of_ne different _ _
  have linkedAfter : WellLinked after refs (Function.update ledger ref entries) := by
    refine ⟨?_, linked.nonempty, linked.distinct, linked.bounded, ?_, ?_, ?_, ?_, ?_, ?_⟩
    · rw [globals.contextHead]
      refine linked.chain.congr fun other otherMember => ?_
      by_cases here : other = ref
      · subst here
        simp [contexts, linked.loaded member]
      · simp [contexts, here]
    · intro other otherMember
      rw [(others other otherMember).state_eq, states]
      exact linked.stated other otherMember
    · intro one oneMember other otherMember
      rw [(others one oneMember).state_eq, (others other otherMember).state_eq]
      exact linked.statesApart one oneMember other otherMember
    · intro other otherMember
      by_cases here : other = ref
      · subst here
        rw [atRef, update_self]
        exact chain
      · rw [atOther other here, rewritten other here]
        refine (linked.ledgers other otherMember).congr fun each inLedger => ?_
        rw [dynmems other otherMember here each inLedger]
    · intro other otherMember
      by_cases here : other = ref
      · rw [here, update_self]
        exact distinct
      · rw [rewritten other here]
        exact linked.ledgerDistinct other otherMember
    · intro other otherMember
      by_cases here : other = ref
      · rw [here, update_self]
        exact bounded
      · rw [rewritten other here]
        exact linked.ledgerBounded other otherMember
    · intro one oneMember other otherMember different
      by_cases oneHere : one = ref
      · subst oneHere
        rw [update_self, rewritten other different.symm]
        exact apart other otherMember different.symm
      · rw [rewritten one oneHere]
        by_cases otherHere : other = ref
        · subst otherHere
          rw [update_self]
          exact (apart one oneMember oneHere).symm
        · rw [rewritten other otherHere]
          exact linked.ledgersApart one oneMember other otherMember different
  exact ⟨linkedAfter, ⟨_, linkedAfter⟩, others, globals⟩

theorem WellLinked.extend {s after : MpContexts σ κ} {refs : List Ref} {ledger : Ref → List Ref}
    (linked : WellLinked s refs ledger) {ref entry head : Ref} (member : ref ∈ refs)
    (bounded : entry < addressSpace) (unused : ∀ other ∈ refs, entry ∉ ledger other)
    (contexts : after.contexts =
      Function.update s.contexts ref (some { s.nodeOf ref with memhead := head }))
    (states : after.states = s.states) (globals : SameGlobals s after)
    (ownLedger : Chain MpContextDynmemNode.next after.dynmems head (ledger ref ++ [entry]))
    (dynmems : ∀ other, other ≠ entry → other ∉ ledger ref → after.dynmems other = s.dynmems other) :
    WellLinked after refs (Function.update ledger ref (ledger ref ++ [entry])) ∧
      Kept s refs after := by
  refine linked.rewriteLedger member contexts states globals ownLedger ?_ ?_ ?_ ?_
  · exact List.Nodup.append (linked.ledgerDistinct ref member) (nodup_singleton entry)
      (by simpa using unused ref member)
  · simp only [mem_append, mem_singleton]
    rintro each (old | rfl)
    · exact linked.ledgerBounded ref member each old
    · exact bounded
  · intro other otherMember different
    refine disjoint_append_left.mpr
      ⟨linked.ledgersApart ref member other otherMember different.symm, ?_⟩
    simpa using unused other otherMember
  · intro other otherMember different each inLedger
    have notNew : each ≠ entry := fun isNew => unused other otherMember (isNew ▸ inLedger)
    exact dynmems each notNew (linked.ledgersApart other otherMember ref member different inLedger)

/-- The block that a ledger entry accounts for, and its size. -/
def MpContextDynmemNode.account (node : MpContextDynmemNode) : Ref × Nat := (node.mem, node.size)

/-- `mp_dynmem_append` of a new entry to the ledger of a listed context. -/
theorem mpDynmemAppend_spec {s : MpContexts σ κ} {refs : List Ref} {ledger : Ref → List Ref}
    (linked : WellLinked s refs ledger) {ref entry : Ref} {node : MpContextDynmemNode}
    (member : ref ∈ refs) (notNull : entry ≠ 0) (bounded : entry < addressSpace)
    (unused : ∀ other ∈ refs, entry ∉ ledger other) (loaded : s.dynmems entry = some node)
    (unowned : node.context = 0) :
    ∃ after, s.mpDynmemAppend entry ref = some after ∧
      WellLinked after refs (Function.update ledger ref (ledger ref ++ [entry])) ∧
      Kept s refs after ∧ after.blocks = s.blocks ∧
      ∀ other, (after.dynmems other).map MpContextDynmemNode.account =
        (s.dynmems other).map MpContextDynmemNode.account := by
  have refNotNull := linked.chain.ne_zero ref member
  have chain := linked.ledgers ref member
  have refLoaded := linked.loaded member
  by_cases empty : (s.nodeOf ref).memhead = 0
  · have noEntries : ledger ref = [] := by
      cases entries : ledger ref with
      | nil => rfl
      | cons first rest =>
        rw [entries] at chain
        obtain ⟨firstEq, firstNotNull, _⟩ := chain.uncons
        exact absurd (firstEq ▸ empty) firstNotNull
    refine ⟨((s.setDynmem entry { node with next := 0 }).setContext ref
      { s.nodeOf ref with memhead := entry }).setDynmem entry
        { node with next := 0, context := ref }, ?_, ?_⟩
    · simp [MpContexts.mpDynmemAppend, MpContexts.setDynmem, notNull, refNotNull, loaded, unowned,
        refLoaded, empty]
    · rw [← and_assoc]
      refine ⟨linked.extend member bounded unused rfl rfl ⟨rfl, rfl, rfl, rfl⟩ ?_ ?_, rfl, ?_⟩
      · rw [noEntries]
        exact .cons notNull (update_self _ _ _) .nil
      · intro other different _
        simp [MpContexts.setDynmem, MpContexts.setContext, different]
      · intro other
        by_cases here : other = entry
        · simp [here, MpContexts.setDynmem, loaded, MpContextDynmemNode.account]
        · simp [here, MpContexts.setDynmem, MpContexts.setContext]
  · have some_ : ledger ref ≠ [] := by
      intro noEntries
      rw [noEntries] at chain
      exact empty chain.start_eq
    have notIn := unused ref member
    have lastMem := getLast_mem some_
    have lastNotNull := chain.ne_zero _ lastMem
    have apart : (ledger ref).getLast some_ ≠ entry := fun same => notIn (same ▸ lastMem)
    obtain ⟨last, lastLoaded⟩ := chain.loaded _ lastMem
    have tail : (s.setDynmem entry { node with next := 0 }).mpDynmemTail ref =
        some ((ledger ref).getLast some_) := by
      have prepared : Chain MpContextDynmemNode.next
          (s.setDynmem entry { node with next := 0 }).dynmems (s.nodeOf ref).memhead
          ((ledger ref).dropLast ++ [(ledger ref).getLast some_]) := by
        rw [dropLast_append_getLast]
        refine chain.congr fun each inLedger => ?_
        have different : each ≠ entry := fun same => notIn (same ▸ inLedger)
        simp [MpContexts.setDynmem, different]
      have short : (ledger ref).length < addressSpace :=
        length_lt_of_nodup (linked.ledgerDistinct ref member) chain.ne_zero
          (linked.ledgerBounded ref member) (by decide)
      have walked := prepared.walk_eq (fun each => each.next == 0)
        (by rwa [dropLast_append_getLast])
      rw [prepared.find_last] at walked
      simpa [MpContexts.mpDynmemTail, MpContexts.mpDynmemPredecessor, refNotNull,
        MpContexts.setDynmem, refLoaded] using walked
    refine ⟨((s.setDynmem entry { node with next := 0 }).setDynmem ((ledger ref).getLast some_)
      { last with next := entry }).setDynmem entry { node with next := 0, context := ref }, ?_, ?_⟩
    · have stillLast : (s.setDynmem entry { node with next := 0 }).dynmems
          ((ledger ref).getLast some_) = some last :=
        (update_of_ne apart _ _).trans lastLoaded
      have stillOwner : (s.setDynmem entry { node with next := 0 }).contexts ref =
          some (s.nodeOf ref) := refLoaded
      rw [unowned] at tail stillLast stillOwner
      simp [MpContexts.mpDynmemAppend, notNull, refNotNull, loaded, unowned, stillOwner, empty,
        tail, lastNotNull, stillLast]
    · have unchanged : s.contexts = Function.update s.contexts ref
          (some { s.nodeOf ref with memhead := (s.nodeOf ref).memhead }) := by
        rw [show { s.nodeOf ref with memhead := (s.nodeOf ref).memhead } = s.nodeOf ref from rfl,
          ← refLoaded, update_eq_self]
      rw [← and_assoc]
      refine ⟨linked.extend member bounded unused unchanged rfl ⟨rfl, rfl, rfl, rfl⟩ ?_ ?_, rfl, ?_⟩
      · refine chain.snoc some_ notNull ?_ ?_ ?_ (linked.ledgerDistinct ref member)
        · simp [MpContexts.setDynmem, apart]
        · simp [MpContexts.setDynmem]
        · intro each inLedger notLast
          have different : each ≠ entry := fun same => notIn (same ▸ inLedger)
          simp [MpContexts.setDynmem, different, notLast]
      · intro other different notListed
        have notLast : other ≠ (ledger ref).getLast some_ := fun same => notListed (same ▸ lastMem)
        simp [MpContexts.setDynmem, different, notLast]
      · intro other
        by_cases here : other = entry
        · simp [here, MpContexts.setDynmem, loaded, MpContextDynmemNode.account]
        · by_cases isLast : other = (ledger ref).getLast some_
          · simp [isLast, apart, MpContexts.setDynmem, lastLoaded, MpContextDynmemNode.account]
          · simp [here, isLast, MpContexts.setDynmem]

/-- What an allocation for a context leaves behind: its ledger has one more entry, at an
address that was not used before, for the new block. -/
structure Allocated (s : MpContexts σ κ) (refs : List Ref) (ledger : Ref → List Ref) (ref entry mem : Ref)
    (size : Nat) (after : MpContexts σ κ) : Prop where
  linked : WellLinked after refs (Function.update ledger ref (ledger ref ++ [entry]))
  fresh : s.dynmems entry = none
  blocks : after.blocks = Function.update s.blocks mem (some size)
  account : (after.dynmems entry).map MpContextDynmemNode.account = some (mem, size)
  others : ∀ other, other ≠ entry → (after.dynmems other).map MpContextDynmemNode.account =
    (s.dynmems other).map MpContextDynmemNode.account

section

variable {s : MpContexts σ κ} {refs : List Ref} {ledger : Ref → List Ref}
  (linked : WellLinked s refs ledger) {ref : Ref} (member : ref ∈ refs) (size : Nat)
  {mallocNode : Ref} (mallocMem : Ref) (malloced : Malloced s mallocNode)

include s refs ledger linked ref member size mallocNode mallocMem malloced

/-- `mp_context_dynmem_alloc` for a listed context. It changes nothing unless both its
allocations succeed. -/
theorem mpContextDynmemAlloc_cases :
    (s.mpContextDynmemAlloc size ref mallocNode mallocMem = some (s, 0) ∧
        (mallocNode = 0 ∨ mallocMem = 0)) ∨
      mallocNode ≠ 0 ∧ mallocMem ≠ 0 ∧
        ∃ after, s.mpContextDynmemAlloc size ref mallocNode mallocMem = some (after, mallocMem) ∧
          Kept s refs after ∧ Allocated s refs ledger ref mallocNode mallocMem size after := by
  have refNotNull := linked.chain.ne_zero ref member
  by_cases nodeNull : mallocNode = 0
  · exact Or.inl ⟨by simp [MpContexts.mpContextDynmemAlloc, refNotNull, nodeNull], Or.inl nodeNull⟩
  obtain ⟨bounded, _, _, free, _⟩ := malloced.resolve_left nodeNull
  by_cases memNull : mallocMem = 0
  · have unallocated : Function.update s.dynmems mallocNode none = s.dynmems := by
      rw [← free, update_eq_self]
    exact Or.inl ⟨by
      simp [MpContexts.mpContextDynmemAlloc, refNotNull, nodeNull, memNull, unallocated],
      Or.inr memNull⟩
  have unused : ∀ other ∈ refs, mallocNode ∉ ledger other := by
    intro other otherMember inLedger
    obtain ⟨node, loaded⟩ := (linked.ledgers other otherMember).loaded _ inLedger
    simp [free] at loaded
  let created : MpContexts σ κ :=
    { s with
      dynmems := Function.update s.dynmems mallocNode (some ⟨0, mallocMem, size, 0⟩)
      blocks := Function.update s.blocks mallocMem (some size) }
  have createdLinked : WellLinked created refs ledger := by
    refine linked.reframe rfl (fun other otherMember => ?_) (fun _ _ => rfl)
      fun other otherMember entry inLedger => ?_
    · exact ⟨_, linked.loaded otherMember, rfl, rfl, rfl⟩
    · exact update_of_ne
        (fun same : entry = mallocNode => unused other otherMember (same ▸ inLedger)) _ _
  obtain ⟨after, appended, afterLinked, kept, blocks, accounts⟩ := mpDynmemAppend_spec createdLinked
    member nodeNull bounded unused (update_self _ _ _) rfl
  refine Or.inr ⟨nodeNull, memNull, after, ?_, ⟨kept.linked, kept.others,
    ⟨kept.globals.1, kept.globals.2, kept.globals.3, kept.globals.4⟩⟩, afterLinked, free, blocks,
    ?_, fun other different => ?_⟩
  · have unfolded : s.mpContextDynmemAlloc size ref mallocNode mallocMem =
        (created.mpDynmemAppend mallocNode ref).bind fun s => some (s, mallocMem) := by
      simp [MpContexts.mpContextDynmemAlloc, refNotNull, nodeNull, memNull, created]
    rw [unfolded, appended]
    rfl
  · rw [accounts]
    simp [created, MpContextDynmemNode.account]
  · rw [accounts]
    simp [created, different]

theorem mpContextDynmemAlloc_spec :
    ∃ after, s.mpContextDynmemAlloc size ref mallocNode mallocMem =
        some (after, if mallocNode = 0 then 0 else mallocMem) ∧ Kept s refs after := by
  rcases mpContextDynmemAlloc_cases linked member size mallocMem malloced with
    ⟨failed, isNull⟩ | ⟨nodeNull, _, after, ran, kept, _⟩
  · refine ⟨s, ?_, ⟨ledger, linked⟩, fun _ _ => .refl _, .refl s⟩
    rw [failed]
    rcases isNull with nodeNull | memNull
    · rw [if_pos nodeNull]
    · rw [memNull, ite_self]
  · exact ⟨after, by rw [ran, if_neg nodeNull], kept⟩

end

end MultiPython.Context
