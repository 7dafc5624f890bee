import MultiPython.Context.Dynmem

/-!
# Ledgers over whole runs

The functions of `py/mpstate.c` are called in any order, on any contexts, with any results
of `malloc`. A log of the blocks that were handed out and of those that were passed to
`free` is kept beside the memory. In every run a block that was handed out and not freed is
in the ledger of exactly one context, no block is freed twice, and a call changes the
ledger of no context but the one it is for.
-/

namespace MultiPython.Context

open Logic List Option Function

variable {σ κ : Type}

/-! ## What is freed -/

namespace MpContexts

variable (s : MpContexts σ κ)

/-- The memory that `mp_dynmem_remove` passes to `free`. -/
def mpDynmemRemoveFrees (node context : Ref) : List Ref :=
  match s.contexts context, s.dynmems node with
  | some owner, some entry =>
    if node = 0 ∨ context = 0 ∨ entry.mem = 0 then
      []
    else if owner.memhead = node ∨ s.mpDynmemPredecessor node context ≠ some 0 then
      [entry.mem]
    else
      []
  | _, _ => []

/-- The memory that the loop of `mp_context_dynmem_free_all` passes to `free`. -/
def mpDynmemFreeLoopFrees : Nat → MpContexts σ κ → Ref → List Ref
  | 0, _, _ => []
  | fuel + 1, s, context =>
    match s.contexts context with
    | none => []
    | some owner =>
      if owner.memhead = 0 then
        []
      else
        s.mpDynmemRemoveFrees owner.memhead context ++
          match s.mpDynmemRemove owner.memhead context with
          | none => []
          | some s => mpDynmemFreeLoopFrees fuel s context

/-- The memory that `mp_context_dynmem_free_all` passes to `free`. -/
def mpContextDynmemFreeAllFrees (context : Ref) : List Ref :=
  if context = 0 then [] else mpDynmemFreeLoopFrees addressSpace s context

/-- The memory that `mp_task_free_all` passes to `free`. -/
def mpTaskFreeAllFrees (tID : Nat) : List Ref :=
  match s.mpContextByTid tID with
  | none => []
  | some context => s.mpContextDynmemFreeAllFrees context

/-- The memory that `mp_task_free` passes to `free`. -/
def mpTaskFreeFrees (mem : Ref) (tID : Nat) : List Ref :=
  match s.mpContextByTid tID with
  | none => []
  | some context =>
    match s.mpDynmemNodeByMem mem context with
    | none => []
    | some node =>
      if (s.dynmems node).map MpContextDynmemNode.mem = some mem then
        s.mpDynmemRemoveFrees node context
      else
        []

/-- The memory of ledgers that `mp_context_remove` passes to `free`. -/
def mpContextRemoveFrees (node : Ref) : List Ref :=
  match s.mpContextPredecessor node with
  | none | some 0 => []
  | some predecessor =>
    match s.contexts node, s.contexts predecessor with
    | some removed, some before =>
      (s.setContext predecessor { before with next := removed.next }).mpContextDynmemFreeAllFrees
        node
    | _, _ => []

/-- The memory of ledgers that `mp_task_remove` passes to `free`. -/
def mpTaskRemoveFrees (tID : Nat) : List Ref :=
  match s.mpContextByTid tID with
  | none => []
  | some node => if node = s.contextHead ∨ node = 0 then [] else s.mpContextRemoveFrees node

end MpContexts

variable {ref : Ref} {ref entry : Ref} {node : MpContextDynmemNode} {entries : List Ref}

section Frees

variable {s : MpContexts σ κ} {refs : List Ref} {ledger : Ref → List Ref}

theorem mpDynmemRemoveFrees_null (context : Ref) : s.mpDynmemRemoveFrees 0 context = [] := by
  unfold MpContexts.mpDynmemRemoveFrees
  split <;> simp

variable {owner : MpContextNode}

theorem mpDynmemRemoveFrees_first {entry : MpContextDynmemNode} (notNull : ref ≠ 0)
    (entryNotNull : owner.memhead ≠ 0) (loaded : s.contexts ref = some owner)
    (entryLoaded : s.dynmems owner.memhead = some entry) (memNotNull : entry.mem ≠ 0) :
    s.mpDynmemRemoveFrees owner.memhead ref = [entry.mem] := by
  simp [MpContexts.mpDynmemRemoveFrees, notNull, entryNotNull, loaded, entryLoaded, memNotNull]

theorem WellLinked.removeFrees_eq (linked : WellLinked s refs ledger) (member : ref ∈ refs)
    (inLedger : entry ∈ ledger ref) (entryLoaded : s.dynmems entry = some node)
    (memNotNull : node.mem ≠ 0) : s.mpDynmemRemoveFrees entry ref = [node.mem] := by
  have refNotNull := linked.chain.ne_zero ref member
  have entryNotNull := (linked.ledgers ref member).ne_zero entry inLedger
  by_cases isFirst : (s.nodeOf ref).memhead = entry
  · subst isFirst
    exact mpDynmemRemoveFrees_first refNotNull entryNotNull (linked.loaded member) entryLoaded
      memNotNull
  · obtain ⟨early, before, late, entries⟩ := linked.dynmem_split member inLedger isFirst
    have beforeNotNull : before ≠ 0 :=
      (linked.ledgers ref member).ne_zero before (by simp [entries])
    simp [MpContexts.mpDynmemRemoveFrees, refNotNull, entryNotNull, linked.loaded member,
      entryLoaded, memNotNull, linked.dynmemPredecessor_eq member entries, beforeNotNull]

/-- The loop of `mp_context_dynmem_free_all` frees each block of the ledger once. -/
theorem mpDynmemFreeLoopFrees_eq (notNull : ref ≠ 0) (loaded : s.contexts ref = some owner)
    (chain : Chain MpContextDynmemNode.next s.dynmems owner.memhead entries)
    (distinct : entries.Nodup) (blocksNotNull : ∀ listed ∈ s.book entries, listed.1 ≠ 0)
    {fuel : Nat} (enough : entries.length < fuel) :
    MpContexts.mpDynmemFreeLoopFrees fuel s ref = (s.book entries).map Prod.fst := by
  induction entries generalizing s owner fuel with
  | nil =>
    obtain ⟨fuel, rfl⟩ : ∃ more, fuel = more + 1 := ⟨fuel - 1, by omega⟩
    simp [MpContexts.mpDynmemFreeLoopFrees, loaded, chain.start_eq, MpContexts.book]
  | cons first rest ih =>
    rw [length_cons] at enough
    obtain ⟨fuel, rfl⟩ : ∃ more, fuel = more + 1 := ⟨fuel - 1, by omega⟩
    obtain ⟨firstEq, firstNotNull, entry, entryLoaded, tail⟩ := chain.uncons
    obtain ⟨notLater, restDistinct⟩ := nodup_cons.mp distinct
    subst firstEq
    have booked : s.book (owner.memhead :: rest) = entry.account :: s.book rest := by
      simp [MpContexts.book, entryLoaded]
    rw [booked] at blocksNotNull ⊢
    have removed := mpDynmemRemove_first notNull firstNotNull loaded entryLoaded
    generalize later : { s with
      contexts := Function.update s.contexts ref (some { owner with memhead := entry.next })
      dynmems := Function.update s.dynmems owner.memhead none
      blocks := if entry.mem = 0 then s.blocks else Function.update s.blocks entry.mem none } =
        middle at removed
    have unchanged : ∀ other ∈ rest, middle.dynmems other = s.dynmems other := by
      intro other member
      have different : other ≠ owner.memhead := fun same => notLater (same ▸ member)
      rw [← later]
      exact update_of_ne different _ _
    have sameBook : middle.book rest = s.book rest :=
      book_congr fun other member => by rw [unchanged other member]
    have reloaded : middle.contexts ref = some { owner with memhead := entry.next } := by
      rw [← later]
      exact update_self _ _ _
    have freed := ih reloaded
      (tail.congr fun other member => by rw [unchanged other member]) restDistinct
      (fun listed member => blocksNotNull listed (mem_cons_of_mem _ (sameBook ▸ member)))
      (show rest.length < fuel by omega)
    rw [MpContexts.mpDynmemFreeLoopFrees, loaded]
    simp only [firstNotNull, if_false, removed, freed, sameBook, mpDynmemRemoveFrees_first notNull
      firstNotNull loaded entryLoaded (blocksNotNull _ mem_cons_self)]
    rfl

end Frees

/-! ## One call -/

/-- The ledgers are linked, and together they list the allocated blocks. -/
structure Ledgers (s : MpContexts σ κ) (refs : List Ref) (ledger : Ref → List Ref) : Prop where
  linked : WellLinked s refs ledger
  booked : Booked s (s.books refs ledger)

/-- The ledger of a context is the same, and its blocks are still allocated. -/
structure Untouched (s after : MpContexts σ κ) (ref : Ref) : Prop where
  listed : ref ∈ after.contextList
  accounts : after.accounts ref = s.accounts ref
  blocks : ∀ entry ∈ s.accounts ref, after.blocks entry.1 = some entry.2

variable {mallocNode mallocMem : Ref} {tID : Nat}

section Calls

variable {s after : MpContexts σ κ} {refs : List Ref} {ledger : Ref → List Ref} {listed : Ref × Nat}

theorem mem_books (member : ref ∈ refs) (inBook : listed ∈ s.book (ledger ref)) :
    listed ∈ s.books refs ledger :=
  mem_flatMap.mpr ⟨ref, member, inBook⟩

namespace Ledgers

variable {ref : Ref}

theorem allocated (holds : Ledgers s refs ledger) (member : ref ∈ refs)
    (inBook : listed ∈ s.book (ledger ref)) : s.blocks listed.1 = some listed.2 :=
  (holds.booked.allocated _ _).mpr (mem_books member inBook)

theorem notNull (holds : Ledgers s refs ledger) (member : ref ∈ refs) :
    ∀ listed ∈ s.book (ledger ref), listed.1 ≠ 0 :=
  fun listed inBook => holds.booked.notNull listed (mem_books member inBook)

theorem once (holds : Ledgers s refs ledger) (member : ref ∈ refs) :
    ((s.book (ledger ref)).map Prod.fst).Nodup := by
  have whole := (holds.booked.perm (books_perm member)).once
  rw [map_append, nodup_append] at whole
  exact whole.1

theorem untouched (holds : Ledgers s refs ledger) {nowRefs : List Ref} {nowLedger : Ref → List Ref}
    (now : Ledgers after nowRefs nowLedger) (member : ref ∈ refs) (nowMember : ref ∈ nowRefs)
    (same : after.book (nowLedger ref) = s.book (ledger ref)) : Untouched s after ref := by
  refine ⟨now.linked.contextList_eq.symm ▸ nowMember, ?_, fun listed inBook => ?_⟩
  · rw [now.linked.accounts_eq nowMember, holds.linked.accounts_eq member, same]
  · rw [holds.linked.accounts_eq member, ← same] at inBook
    exact now.allocated nowMember inBook

theorem books_update (distinct : refs.Nodup) (member : ref ∈ refs)
    (same : ∀ other ∈ refs, other ≠ ref → after.book (ledger other) = s.book (ledger other)) :
    (after.books refs (Function.update ledger ref entries)).Perm
      (after.book entries ++ s.books (refs.erase ref) ledger) := by
  have others : after.books (refs.erase ref) (Function.update ledger ref entries) =
      s.books (refs.erase ref) ledger := by
    refine books_congr fun other there => ?_
    obtain ⟨different, otherMember⟩ := (distinct.mem_erase_iff).mp there
    rw [update_of_ne different, same other otherMember different]
  have split : (after.books refs (Function.update ledger ref entries)).Perm _ := books_perm member
  rwa [others, update_self] at split

section

variable (holds : Ledgers s refs ledger)

include holds

variable {ref : Ref}

/-- `mp_context_dynmem_alloc` for a listed context. -/
theorem alloc (member : ref ∈ refs) (size : Nat) (mallocedNode : Malloced s mallocNode)
    (mallocedMem : Malloced s mallocMem) :
    (s.mpContextDynmemAlloc size ref mallocNode mallocMem = some (s, 0)) ∨
      mallocMem ≠ 0 ∧ ∃ after entries,
        s.mpContextDynmemAlloc size ref mallocNode mallocMem = some (after, mallocMem) ∧
        Ledgers after refs (Function.update ledger ref entries) ∧
        after.book entries = s.book (ledger ref) ++ [(mallocMem, size)] ∧
        after.blocks = Function.update s.blocks mallocMem (some size) ∧
        ∀ other ∈ refs, other ≠ ref → Untouched s after other := by
  rcases mpContextDynmemAlloc_cases holds.linked member size mallocMem mallocedNode with
    ⟨failed, _⟩ | ⟨_, memNull, after, ran, _, spec⟩
  · exact .inl failed
  have fresh : ∀ other ∈ refs, mallocNode ∉ ledger other := by
    intro other otherMember there
    obtain ⟨node, loaded⟩ := (holds.linked.ledgers other otherMember).loaded _ there
    simp [spec.fresh] at loaded
  have sameBook : ∀ other ∈ refs, after.book (ledger other) = s.book (ledger other) :=
    fun other otherMember => book_congr fun entry there =>
      spec.others entry fun isNew => fresh other otherMember (isNew ▸ there)
  have added : after.book (ledger ref ++ [mallocNode]) = s.book (ledger ref) ++ [(mallocMem, size)] := by
    have ofNew : after.book [mallocNode] = [(mallocMem, size)] := by
      simp [MpContexts.book, spec.account]
    rw [← ofNew, ← sameBook ref member, MpContexts.book, filterMap_append]
    rfl
  have now : Ledgers after refs (Function.update ledger ref (ledger ref ++ [mallocNode])) := by
    refine ⟨spec.linked, ?_⟩
    have perm : (after.books refs (Function.update ledger ref (ledger ref ++ [mallocNode]))).Perm _ :=
      books_update holds.linked.distinct member fun other otherMember _ => sameBook other otherMember
    rw [added] at perm
    obtain ⟨_, _, _, _, free⟩ := mallocedMem.resolve_left memNull
    have booked := holds.booked.add free memNull spec.blocks
    refine booked.perm (.trans ?_ perm.symm)
    have moved : ([(mallocMem, size)] ++ s.book (ledger ref)).Perm _ := perm_append_comm
    exact ((books_perm member).cons _).trans (moved.append_right (s.books (refs.erase ref) ledger))
  refine .inr ⟨memNull, after, _, ran, now, added, spec.blocks, fun other otherMember different => ?_⟩
  refine holds.untouched now otherMember otherMember ?_
  rw [update_of_ne different, sameBook other otherMember]

variable {node : MpContextDynmemNode}

theorem released_book (member : ref ∈ refs) (inLedger : entry ∈ ledger ref)
    (loaded : s.dynmems entry = some node) (spec : Released s refs ledger ref entry after) :
    after.book ((ledger ref).erase entry) = (s.book (ledger ref)).erase node.account ∧
      (s.book (ledger ref)).Perm (node.account :: after.book ((ledger ref).erase entry)) := by
  obtain ⟨early, late, entries⟩ := append_of_mem inLedger
  have distinct := holds.linked.ledgerDistinct ref member
  rw [entries] at distinct
  have notElsewhere := (nodup_cons.mp (nodup_middle.mp distinct)).1
  have erased : (ledger ref).erase entry = early ++ late := by
    rw [entries, erase_append_right _ fun there => notElsewhere (mem_append_left _ there),
      erase_cons_head]
  have booked : s.book (ledger ref) = s.book early ++ node.account :: s.book late := by
    simp [entries, MpContexts.book, loaded]
  have rest : after.book ((ledger ref).erase entry) = s.book early ++ s.book late := by
    rw [erased, MpContexts.book, filterMap_append]
    refine congrArg₂ _ (book_congr fun each there => ?_) (book_congr fun each there => ?_)
    · exact spec.others each fun same => notElsewhere (mem_append_left _ (same ▸ there))
    · exact spec.others each fun same => notElsewhere (mem_append_right _ (same ▸ there))
  have onlyHere : node.account ∉ s.book early := by
    have once := holds.once member
    rw [booked, map_append, nodup_append] at once
    intro there
    exact once.2.2 _ (mem_map_of_mem there) _ mem_cons_self rfl
  rw [rest, booked]
  refine ⟨?_, perm_middle⟩
  rw [erase_append_right _ onlyHere, erase_cons_head]

/-- One block of a ledger is freed. -/
theorem released (member : ref ∈ refs) (inLedger : entry ∈ ledger ref)
    (loaded : s.dynmems entry = some node) (spec : Released s refs ledger ref entry after) :
    Ledgers after refs (Function.update ledger ref ((ledger ref).erase entry)) ∧
      (∀ block, after.blocks block = if block = node.mem then none else s.blocks block) ∧
      ∀ other ∈ refs, other ≠ ref → Untouched s after other := by
  have one : s.book [entry] = [node.account] := by simp [MpContexts.book, loaded]
  have inBook : node.account ∈ s.book (ledger ref) :=
    mem_filterMap.mpr ⟨entry, inLedger, by simp [loaded]⟩
  have notNull : node.mem ≠ 0 := holds.notNull member _ inBook
  have blocks : ∀ block, after.blocks block =
      if block ≠ 0 ∧ block ∈ [node.account].map Prod.fst then none else s.blocks block := by
    intro block
    simp only [spec.blocks, accountsFor_iff_mem_book, one]
  have sameBook : ∀ other ∈ refs, other ≠ ref →
      after.book (ledger other) = s.book (ledger other) := by
    intro other otherMember different
    refine book_congr fun each there => spec.others each ?_
    rintro rfl
    exact holds.linked.ledgersApart other otherMember ref member different there inLedger
  have now : Ledgers after refs (Function.update ledger ref ((ledger ref).erase entry)) := by
    refine ⟨spec.linked, ?_⟩
    have perm : (after.books refs (Function.update ledger ref ((ledger ref).erase entry))).Perm _ :=
      books_update holds.linked.distinct member sameBook
    refine Booked.perm ?_ perm.symm
    refine (holds.booked.perm ((books_perm member).trans ?_)).drop blocks
    exact (holds.released_book member inLedger loaded spec).2.append_right _
  refine ⟨now, fun block => ?_, fun other otherMember different => ?_⟩
  · rw [blocks]
    refine if_congr ⟨fun both => by simpa [MpContextDynmemNode.account] using both.2, ?_⟩ rfl rfl
    rintro rfl
    exact ⟨notNull, mem_cons_self⟩
  · refine holds.untouched now otherMember otherMember ?_
    rw [update_of_ne different, sameBook other otherMember different]

theorem nodeByMem_eq {ref mem : Ref} (member : ref ∈ refs) (notNull : mem ≠ 0) :
    s.mpDynmemNodeByMem mem ref =
      some (((ledger ref).find? (meets s.dynmems fun node => node.mem == mem)).getD 0) := by
  have chain := holds.linked.ledgers ref member
  have short : (ledger ref).length < addressSpace :=
    length_lt_of_nodup (holds.linked.ledgerDistinct ref member) chain.ne_zero
      (holds.linked.ledgerBounded ref member) (by decide)
  simp [MpContexts.mpDynmemNodeByMem, notNull, holds.linked.chain.ne_zero ref member,
    holds.linked.loaded member, chain.walk_eq _ short]

/-- `mp_context_dynmem_free` for a listed context: memory that is not in its ledger is left
alone, and nothing else changes either. -/
theorem free (member : ref ∈ refs) (mem : Ref) :
    (s.mpContextDynmemFree mem ref = some (s, -1) ∧ mem ∉ (s.book (ledger ref)).map Prod.fst ∧
        ∀ entry, s.mpDynmemNodeByMem mem ref = some entry → entry = 0) ∨
      ∃ entry node after, s.mpDynmemNodeByMem mem ref = some entry ∧ entry ∈ ledger ref ∧
        s.dynmems entry = some node ∧ node.mem = mem ∧
        s.mpContextDynmemFree mem ref = some (after, 0) ∧
        Released s refs ledger ref entry after := by
  have refNotNull := holds.linked.chain.ne_zero ref member
  have chain := holds.linked.ledgers ref member
  by_cases memNull : mem = 0
  · subst memNull
    refine .inl ⟨by simp [MpContexts.mpContextDynmemFree, MpContexts.mpDynmemNodeByMem,
      refNotNull], fun there => ?_, by simp [MpContexts.mpDynmemNodeByMem]⟩
    obtain ⟨listed, inBook, isNull⟩ := mem_map.mp there
    exact holds.notNull member listed inBook isNull
  have byMem := holds.nodeByMem_eq member memNull
  cases found : (ledger ref).find? (meets s.dynmems fun node => node.mem == mem) with
  | none =>
    rw [found] at byMem
    refine .inl ⟨by simp [MpContexts.mpContextDynmemFree, refNotNull, byMem], fun there => ?_,
      by simp [byMem]⟩
    obtain ⟨listed, inBook, isMem⟩ := mem_map.mp there
    obtain ⟨entry, inLedger, accounted⟩ := mem_filterMap.mp inBook
    obtain ⟨node, loaded, rfl⟩ := map_eq_some_iff.mp accounted
    refine find?_eq_none.mp found entry inLedger ?_
    simpa [meets, loaded, MpContextDynmemNode.account] using isMem
  | some entry =>
    rw [found] at byMem
    have inLedger := mem_of_find?_eq_some found
    obtain ⟨node, loaded⟩ := chain.loaded entry inLedger
    obtain rfl : node.mem = mem := by
      have stops := find?_some found
      simpa [meets, loaded] using stops
    have notNull := chain.ne_zero entry inLedger
    obtain ⟨after, removed, spec⟩ := mpDynmemRemove_spec holds.linked member inLedger
    refine .inr ⟨entry, node, after, byMem, inLedger, loaded, rfl, ?_, spec⟩
    simp [MpContexts.mpContextDynmemFree, refNotNull, byMem, notNull, loaded, removed]

theorem freeAllOf (member : ref ∈ refs) :
    ∃ after code, s.mpContextDynmemFreeAll ref = some (after, code) ∧
      Ledgers after refs (Function.update ledger ref []) ∧
      (∀ block, after.blocks block =
        if s.accountsFor (ledger ref) block then none else s.blocks block) ∧
      ∀ other ∈ refs, other ≠ ref → Untouched s after other := by
  have refNotNull := holds.linked.chain.ne_zero ref member
  obtain ⟨after, code, ran, freed⟩ := mpContextDynmemFreeAll_spec refNotNull
    (holds.linked.loaded member) (holds.linked.ledgers ref member)
    (holds.linked.ledgerDistinct ref member) (holds.linked.ledgerBounded ref member)
  have apart : ∀ other ∈ refs, other ≠ ref → ∀ entry ∈ ledger other,
      after.dynmems entry = s.dynmems entry := fun other otherMember different entry there =>
    freed.others entry (holds.linked.ledgersApart other otherMember ref member different there)
  have sameBook : ∀ other ∈ refs, other ≠ ref →
      after.book (ledger other) = s.book (ledger other) := fun other otherMember different =>
    book_congr fun entry there => by rw [apart other otherMember different entry there]
  have linked : WellLinked after refs (Function.update ledger ref []) :=
    (holds.linked.rewriteLedger member freed.contexts freed.states freed.globals .nil .nil (by simp)
      (fun _ _ _ => disjoint_nil_left _) apart).1
  have now : Ledgers after refs (Function.update ledger ref []) := by
    refine ⟨linked, ?_⟩
    have perm : (after.books refs (Function.update ledger ref [])).Perm _ :=
      books_update holds.linked.distinct member sameBook
    refine Booked.perm ?_ perm.symm
    refine (holds.booked.perm (books_perm member)).drop fun block => ?_
    simp only [freed.blocks, accountsFor_iff_mem_book]
  refine ⟨after, code, ran, now, freed.blocks, fun other otherMember different => ?_⟩
  refine holds.untouched now otherMember otherMember ?_
  rw [update_of_ne different, sameBook other otherMember different]

theorem removeOf (member : ref ∈ refs) (notHead : ref ≠ s.contextHead) :
    ∃ after, s.mpContextRemove ref = some after ∧ Ledgers after (refs.erase ref) ledger ∧
      (∀ block, after.blocks block =
        if s.accountsFor (ledger ref) block then none else s.blocks block) ∧
      ∀ other ∈ refs, other ≠ ref → Untouched s after other := by
  obtain ⟨after, ran, _, dropped⟩ := mpContextRemove_dropped holds.linked member notHead
  have inErased : ∀ {other}, other ∈ refs.erase ref ↔ other ≠ ref ∧ other ∈ refs :=
    holds.linked.distinct.mem_erase_iff
  have sameBook : ∀ other ∈ refs.erase ref, after.book (ledger other) = s.book (ledger other) := by
    intro other there
    obtain ⟨different, otherMember⟩ := inErased.mp there
    refine book_congr fun entry inLedger => ?_
    rw [dropped.dynmems entry
      (holds.linked.ledgersApart other otherMember ref member different inLedger)]
  have now : Ledgers after (refs.erase ref) ledger := by
    refine ⟨dropped.linked, ?_⟩
    rw [books_congr sameBook]
    refine (holds.booked.perm (books_perm member)).drop fun block => ?_
    simp only [dropped.blocks, accountsFor_iff_mem_book]
  refine ⟨after, ran, now, dropped.blocks, fun other otherMember different => ?_⟩
  have there := inErased.mpr ⟨different, otherMember⟩
  exact holds.untouched now otherMember there (sameBook other there)

variable {nowLedger : Ref → List Ref}

theorem kept {added : List Ref} (linked : WellLinked after (refs ++ added) nowLedger)
    (dynmems : after.dynmems = s.dynmems) (blocks : after.blocks = s.blocks)
    (sameLedger : ∀ ref ∈ refs, nowLedger ref = ledger ref)
    (empty : ∀ ref ∈ added, nowLedger ref = []) :
    Ledgers after (refs ++ added) nowLedger ∧ ∀ ref ∈ refs, Untouched s after ref := by
  have sameBook : ∀ ref ∈ refs, after.book (nowLedger ref) = s.book (ledger ref) := by
    intro ref member
    rw [sameLedger ref member]
    exact book_congr fun entry _ => by rw [dynmems]
  have books : after.books (refs ++ added) nowLedger = s.books refs ledger := by
    have nothing : added.flatMap (fun ref => after.book (nowLedger ref)) = [] := by
      refine flatMap_eq_nil_iff.mpr fun ref member => ?_
      rw [empty ref member]
      rfl
    rw [MpContexts.books, flatMap_append, nothing, append_nil]
    exact books_congr sameBook
  have now : Ledgers after (refs ++ added) nowLedger := by
    refine ⟨linked, ?_⟩
    rw [books]
    refine ⟨holds.booked.once, fun block size => ?_, holds.booked.notNull⟩
    rw [blocks]
    exact holds.booked.allocated block size
  refine ⟨now, fun ref member => ?_⟩
  exact holds.untouched now member (mem_append_left _ member) (sameBook ref member)

theorem append {new : Ref} (linked : WellLinked after (refs ++ [new]) nowLedger)
    (fresh : new ∉ refs) (dynmems : after.dynmems = s.dynmems) (blocks : after.blocks = s.blocks)
    (empty : (after.nodeOf new).memhead = 0)
    (memheads : ∀ ref, ref ≠ new → (after.nodeOf ref).memhead = (s.nodeOf ref).memhead) :
    Ledgers after (refs ++ [new]) nowLedger ∧ ∀ ref ∈ refs, Untouched s after ref := by
  refine holds.kept linked dynmems blocks (fun ref member => ?_) ?_
  · have different : ref ≠ new := fun same => fresh (same ▸ member)
    rw [← linked.ledgerList_eq (mem_append_left _ member), ← holds.linked.ledgerList_eq member,
      MpContexts.ledgerList, MpContexts.ledgerList, dynmems, memheads ref different]
  · simp only [mem_singleton, forall_eq]
    have chain := linked.ledgers new (by simp)
    rw [empty] at chain
    cases entries : nowLedger new with
    | nil => rfl
    | cons first rest =>
      rw [entries] at chain
      obtain ⟨isNull, notNull, _⟩ := chain.uncons
      exact absurd isNull.symm notNull

theorem reframe (linked : WellLinked after refs ledger) (dynmems : after.dynmems = s.dynmems)
    (blocks : after.blocks = s.blocks) :
    Ledgers after refs ledger ∧ ∀ ref ∈ refs, Untouched s after ref := by
  have relinked : WellLinked after (refs ++ []) ledger := by rwa [append_nil]
  have same := holds.kept relinked dynmems blocks (fun _ _ => rfl) (by simp)
  rwa [append_nil] at same

end

end Ledgers

theorem mpContextAppend_frame {node : Ref} (ran : s.mpContextAppend node = some after) :
    after.dynmems = s.dynmems ∧ after.blocks = s.blocks ∧
      ∀ ref, (after.nodeOf ref).memhead = (s.nodeOf ref).memhead := by
  have keeps : ∀ (memory : MpContexts σ κ) {ref : Ref} {old : MpContextNode} (next : Ref),
      memory.contexts ref = some old → ∀ other,
      ((memory.setContext ref { old with next := next }).nodeOf other).memhead =
        (memory.nodeOf other).memhead := by
    intro memory ref old next loaded other
    rw [MpContexts.setContext_nodeOf]
    by_cases here : other = ref
    · rw [if_pos here, here, MpContexts.nodeOf_eq loaded]
    · rw [if_neg here]
  unfold MpContexts.mpContextAppend at ran
  split at ran
  · cases ran
    exact ⟨rfl, rfl, fun _ => rfl⟩
  obtain ⟨tail, _, ran⟩ := bind_eq_some_iff.mp ran
  split at ran
  · cases ran
    exact ⟨rfl, rfl, fun _ => rfl⟩
  obtain ⟨last, lastLoaded, ran⟩ := bind_eq_some_iff.mp ran
  obtain ⟨new, newLoaded, ran⟩ := bind_eq_some_iff.mp ran
  cases ran
  refine ⟨rfl, rfl, fun ref => ?_⟩
  rw [keeps _ _ newLoaded, keeps _ _ lastLoaded]

theorem mpContextAppendNew_frame [Zero σ] {mallocNode mallocState : Ref} (notNull : mallocNode ≠ 0)
    (ran : s.mpContextAppendNew mallocNode mallocState = some (after, mallocNode)) :
    after.dynmems = s.dynmems ∧ after.blocks = s.blocks ∧ (after.nodeOf mallocNode).memhead = 0 ∧
      ∀ ref, ref ≠ mallocNode → (after.nodeOf ref).memhead = (s.nodeOf ref).memhead := by
  simp only [MpContexts.mpContextAppendNew, MpContexts.mpNewContextNode, notNull, if_false] at ran
  split at ran
  · cases ran
    exact absurd rfl notNull
  rename_i stateNotNull
  have mallocedState : mallocState ≠ 0 := by
    rintro rfl
    exact stateNotNull rfl
  simp only [MpContexts.mpNewState, mallocedState, if_false] at ran
  obtain ⟨created, createdLoaded, ran⟩ := bind_eq_some_iff.mp ran
  obtain ⟨last, appended, ran⟩ := bind_eq_some_iff.mp ran
  cases ran
  obtain rfl : MpContextNode.zeroed = created := by
    simpa [MpContexts.setContext] using createdLoaded
  obtain ⟨dynmems, blocks, memheads⟩ := mpContextAppend_frame appended
  refine ⟨dynmems, blocks, ?_, fun ref different => ?_⟩
  · rw [memheads, MpContexts.setContext_nodeOf, if_pos rfl]
    rfl
  · rw [memheads, MpContexts.setContext_nodeOf, if_neg different]
    exact congrArg MpContextNode.memhead ((s.setContext_nodeOf mallocNode _ ref).trans
      (if_neg different))

theorem mpTaskRegister_frame [Zero σ] {addtlargs mallocNode mallocState : Ref}
    (notNull : mallocNode ≠ 0)
    (ran : s.mpTaskRegister tID addtlargs mallocNode mallocState = some (after, mallocNode)) :
    after.dynmems = s.dynmems ∧ after.blocks = s.blocks ∧ (after.nodeOf mallocNode).memhead = 0 ∧
      ∀ ref, ref ≠ mallocNode → (after.nodeOf ref).memhead = (s.nodeOf ref).memhead := by
  obtain ⟨existing, _, ran⟩ := bind_eq_some_iff.mp ran
  split at ran
  · cases ran
    exact absurd rfl notNull
  obtain ⟨⟨middle, node⟩, appended, ran⟩ := bind_eq_some_iff.mp ran
  simp only at ran
  split at ran
  · cases ran
    exact absurd rfl notNull
  obtain ⟨added, loaded, ran⟩ := bind_eq_some_iff.mp ran
  cases ran
  obtain ⟨dynmems, blocks, empty, memheads⟩ := mpContextAppendNew_frame notNull appended
  refine ⟨dynmems, blocks, ?_, fun ref different => ?_⟩
  · rw [MpContexts.setContext_nodeOf, if_pos rfl, ← empty, MpContexts.nodeOf_eq loaded]
  · rw [MpContexts.setContext_nodeOf, if_neg different, memheads ref different]

end Calls

/-! ## Every run -/

/-- A call of one of the functions of `py/mpstate.c`, with the results of `malloc`. -/
inductive LedgerCall (κ : Type) where
  | mpTaskRegister (tID : Nat) (addtlargs mallocNode mallocState : Ref)
  | mpContextAppendNew (mallocNode mallocState : Ref)
  | taskEntry (core : κ) (context : Ref)
  | mpTaskSwitchedIn (core : κ) (tID : Nat)
  | mpTaskAlloc (size tID : Nat) (mallocNode mallocMem : Ref)
  | mpTaskFree (mem : Ref) (tID : Nat)
  | mpTaskFreeAll (tID : Nat)
  | mpTaskRemove (tID : Nat)
  | mpContextRemove (context : Ref)
deriving DecidableEq, Repr

/-- The memory, with a log of the blocks that `mp_task_alloc` handed out and of the
blocks that were passed to `free`, the latest first. -/
structure LedgerLog (σ κ : Type) where
  memory : MpContexts σ κ
  handed : List Ref
  freed : List Ref

namespace LedgerLog

/-- Before the first call. -/
def initial (defaultContext defaultState : Ref) (state : σ) : LedgerLog σ κ :=
  ⟨.initial defaultContext defaultState state, [], []⟩

variable [Zero σ] [DecidableEq κ] (s : LedgerLog σ κ)

/-- One call. -/
def call : LedgerCall κ → Option (LedgerLog σ κ)
  | .mpTaskRegister tID addtlargs mallocNode mallocState =>
    (s.memory.mpTaskRegister tID addtlargs mallocNode mallocState).map fun result =>
      { s with memory := result.1 }
  | .mpContextAppendNew mallocNode mallocState =>
    (s.memory.mpContextAppendNew mallocNode mallocState).map fun result =>
      { s with memory := result.1 }
  | .taskEntry core context =>
    (s.memory.multipythonTaskEntry core context).map fun memory => { s with memory := memory }
  | .mpTaskSwitchedIn core tID =>
    (s.memory.mpTaskSwitchedIn core tID).map fun memory => { s with memory := memory }
  | .mpTaskAlloc size tID mallocNode mallocMem =>
    (s.memory.mpTaskAlloc size tID mallocNode mallocMem).map fun result =>
      { s with
        memory := result.1
        handed := if result.2 = 0 then s.handed else result.2 :: s.handed }
  | .mpTaskFree mem tID =>
    (s.memory.mpTaskFree mem tID).map fun result =>
      { s with memory := result.1, freed := s.memory.mpTaskFreeFrees mem tID ++ s.freed }
  | .mpTaskFreeAll tID =>
    (s.memory.mpTaskFreeAll tID).map fun result =>
      { s with memory := result.1, freed := s.memory.mpTaskFreeAllFrees tID ++ s.freed }
  | .mpTaskRemove tID =>
    (s.memory.mpTaskRemove tID).map fun memory =>
      { s with memory := memory, freed := s.memory.mpTaskRemoveFrees tID ++ s.freed }
  | .mpContextRemove context =>
    (s.memory.mpContextRemove context).map fun memory =>
      { s with memory := memory, freed := s.memory.mpContextRemoveFrees context ++ s.freed }

/-- What the caller and `malloc` see to: `malloc` returns `NULL` or memory that is not in
use, a task runs in a listed context, and `mp_context_remove` is not called with `NULL`. -/
def Promised : LedgerCall κ → Prop
  | .mpTaskRegister _ _ mallocNode mallocState | .mpContextAppendNew mallocNode mallocState =>
    Malloced s.memory mallocNode ∧
      Malloced (s.memory.mpNewContextNode mallocNode).1 mallocState
  | .taskEntry _ context => context ∈ s.memory.contextList
  | .mpTaskAlloc _ _ mallocNode mallocMem =>
    Malloced s.memory mallocNode ∧ Malloced s.memory mallocMem ∧
      (mallocMem = mallocNode → mallocMem = 0)
  | .mpContextRemove context => context ≠ 0
  | .mpTaskSwitchedIn _ _ | .mpTaskFree _ _ | .mpTaskFreeAll _ | .mpTaskRemove _ => True

/-- The context that a call is for; 0 if there is none. -/
def target : LedgerCall κ → Ref
  | .mpTaskRegister _ _ mallocNode _ | .mpContextAppendNew mallocNode _ => mallocNode
  | .taskEntry _ context | .mpContextRemove context => context
  | .mpTaskAlloc _ tID _ _ | .mpTaskFree _ tID | .mpTaskFreeAll tID | .mpTaskRemove tID =>
    (s.memory.mpContextByTid tID).getD 0
  | .mpTaskSwitchedIn _ _ => 0

instance : (made : LedgerCall κ) → Decidable (s.Promised made)
  | .mpTaskRegister _ _ _ _ | .mpContextAppendNew _ _ => inferInstanceAs (Decidable (_ ∧ _))
  | .taskEntry _ context => inferInstanceAs (Decidable (context ∈ s.memory.contextList))
  | .mpTaskAlloc _ _ _ _ => inferInstanceAs (Decidable (_ ∧ _ ∧ (_ → _)))
  | .mpContextRemove context => inferInstanceAs (Decidable (context ≠ 0))
  | .mpTaskSwitchedIn _ _ | .mpTaskFree _ _ | .mpTaskFreeAll _ | .mpTaskRemove _ =>
    inferInstanceAs (Decidable True)

/-- A promised call that returns. -/
def Step (s : LedgerLog σ κ) (made : LedgerCall κ) (after : LedgerLog σ κ) : Prop :=
  s.Promised made ∧ s.call made = some after

end LedgerLog

/-- The ledgers list the allocated blocks, and a block was handed out as often as it was
freed, and once more if it is allocated. -/
structure LedgerInvariant (s : LedgerLog σ κ) : Prop where
  ledgers : ∃ refs ledger, Ledgers s.memory refs ledger
  balanced : ∀ block, s.handed.count block =
    s.freed.count block + if (s.memory.blocks block).isSome then 1 else 0


section Balance

variable {s after : LedgerLog σ κ} {memory : MpContexts σ κ}

theorem LedgerInvariant.keep (holds : LedgerInvariant s)
    (ledgers : ∃ refs ledger, Ledgers memory refs ledger) (blocks : memory.blocks = s.memory.blocks) :
    LedgerInvariant { s with memory := memory } := by
  refine ⟨ledgers, fun block => ?_⟩
  simp only [blocks]
  exact holds.balanced block

theorem LedgerInvariant.free (holds : LedgerInvariant s) {frees : List Ref}
    (ledgers : ∃ refs ledger, Ledgers memory refs ledger) (once : frees.Nodup)
    (allocated : ∀ block ∈ frees, (s.memory.blocks block).isSome = true)
    (blocks : ∀ block, memory.blocks block = if block ∈ frees then none else s.memory.blocks block) :
    LedgerInvariant { s with memory := memory, freed := frees ++ s.freed } := by
  refine ⟨ledgers, fun block => ?_⟩
  have before := holds.balanced block
  simp only [blocks, count_append]
  by_cases isFreed : block ∈ frees
  · rw [allocated block isFreed] at before
    rw [count_eq_one_of_mem once isFreed, before]
    simp [isFreed, Nat.add_comm]
  · rw [count_eq_zero_of_not_mem isFreed, before]
    simp [isFreed]

theorem LedgerInvariant.hand (holds : LedgerInvariant s) {mem : Ref} {size : Nat}
    (ledgers : ∃ refs ledger, Ledgers memory refs ledger) (fresh : s.memory.blocks mem = none)
    (blocks : memory.blocks = Function.update s.memory.blocks mem (some size)) :
    LedgerInvariant { s with memory := memory, handed := mem :: s.handed } := by
  refine ⟨ledgers, fun block => ?_⟩
  have before := holds.balanced block
  simp only [blocks, count_cons]
  by_cases here : block = mem
  · subst here
    rw [fresh] at before
    simpa using before
  · rw [before]
    simp [here, Ne.symm here]

end Balance

section TaskFrees

variable {s : MpContexts σ κ} {refs : List Ref} {ledger : Ref → List Ref} {ref : Ref}

theorem Ledgers.freeAllFrees_eq (holds : Ledgers s refs ledger) (member : ref ∈ refs) :
    s.mpContextDynmemFreeAllFrees ref = (s.book (ledger ref)).map Prod.fst := by
  have chain := holds.linked.ledgers ref member
  have distinct := holds.linked.ledgerDistinct ref member
  have notNull := holds.linked.chain.ne_zero ref member
  rw [MpContexts.mpContextDynmemFreeAllFrees, if_neg notNull]
  exact mpDynmemFreeLoopFrees_eq notNull (holds.linked.loaded member) chain distinct
    (holds.notNull member)
    (length_lt_of_nodup distinct chain.ne_zero (holds.linked.ledgerBounded ref member) (by decide))

theorem Ledgers.removeFrees_eq (holds : Ledgers s refs ledger) (member : ref ∈ refs)
    (notHead : ref ≠ s.contextHead) :
    s.mpContextRemoveFrees ref = (s.book (ledger ref)).map Prod.fst := by
  obtain ⟨early, before, late, rfl⟩ :
      ∃ early before late, refs = early ++ before :: ref :: late := by
    obtain ⟨early, late, rfl⟩ := append_of_mem member
    cases early using reverseRecOn with
    | nil => exact absurd holds.linked.chain.start_eq.symm notHead
    | append_singleton early before => exact ⟨early, before, late, by simp⟩
  have beforeMem : before ∈ early ++ before :: ref :: late := by simp
  have beforeNotNull := holds.linked.chain.ne_zero before beforeMem
  have notNull := holds.linked.chain.ne_zero ref member
  have apart : ref ≠ before := by
    rintro rfl
    simpa using nodup_middle.mp holds.linked.distinct
  have chain := holds.linked.ledgers ref member
  have distinct := holds.linked.ledgerDistinct ref member
  have unlinked : (s.setContext before { s.nodeOf before with next := (s.nodeOf ref).next }).contexts
      ref = some (s.nodeOf ref) :=
    (update_of_ne apart _ _).trans (holds.linked.loaded member)
  obtain ⟨beforeLess, rfl⟩ := Nat.exists_eq_succ_of_ne_zero beforeNotNull
  simp only [MpContexts.mpContextRemoveFrees, holds.linked.predecessor_eq,
    holds.linked.loaded member, holds.linked.loaded beforeMem,
    MpContexts.mpContextDynmemFreeAllFrees, notNull, if_false]
  exact mpDynmemFreeLoopFrees_eq notNull unlinked chain distinct (holds.notNull member)
    (length_lt_of_nodup distinct chain.ne_zero (holds.linked.ledgerBounded ref member) (by decide))

theorem Ledgers.freeFrees_eq (holds : Ledgers s refs ledger) (member : ref ∈ refs)
    (found : s.mpContextByTid tID = some ref)
    (byMem : s.mpDynmemNodeByMem node.mem ref = some entry) (inLedger : entry ∈ ledger ref)
    (loaded : s.dynmems entry = some node) : s.mpTaskFreeFrees node.mem tID = [node.mem] := by
  have inBook : node.account ∈ s.book (ledger ref) :=
    mem_filterMap.mpr ⟨entry, inLedger, by simp [loaded]⟩
  have notNull : node.mem ≠ 0 := holds.notNull member _ inBook
  simp [MpContexts.mpTaskFreeFrees, found, byMem, loaded,
    holds.linked.removeFrees_eq member inLedger loaded notNull]

theorem Ledgers.blocks_eq (holds : Ledgers s refs ledger) (member : ref ∈ refs)
    {blocks : Ref → Option Nat} (freed : ∀ block, blocks block =
      if s.accountsFor (ledger ref) block then none else s.blocks block) :
    (∀ block ∈ (s.book (ledger ref)).map Prod.fst, (s.blocks block).isSome = true) ∧
      ∀ block, blocks block =
        if block ∈ (s.book (ledger ref)).map Prod.fst then none else s.blocks block := by
  constructor
  · intro block there
    obtain ⟨listed, inBook, rfl⟩ := mem_map.mp there
    rw [holds.allocated member inBook]
    rfl
  · intro block
    rw [freed]
    refine if_congr ?_ rfl rfl
    rw [accountsFor_iff_mem_book]
    refine ⟨And.right, fun there => ⟨?_, there⟩⟩
    obtain ⟨listed, inBook, rfl⟩ := mem_map.mp there
    exact holds.notNull member listed inBook

end TaskFrees

section Step

section

variable {memory : MpContexts σ κ} {refs : List Ref} {ledger : Ref → List Ref}
  (holds : Ledgers memory refs ledger)

include memory refs ledger holds

theorem Ledgers.untouched_self : ∀ ref ∈ refs, Untouched memory memory ref :=
  fun _ member => holds.untouched holds member member rfl

theorem Ledgers.taskFree_other {mem : Ref}
    (unowned : ∀ ref, memory.mpContextByTid tID = some ref → ref ≠ 0 → mem ∉ (memory.accounts ref).map Prod.fst) :
    memory.mpTaskFree mem tID = some (memory, -1) := by
  rcases holds.linked.byTid_cases tID with ⟨found, _⟩ | ⟨ref, member, found, _⟩
  · simp [MpContexts.mpTaskFree, found]
  · have notNull := holds.linked.chain.ne_zero ref member
    have absent := unowned ref found notNull
    rw [holds.linked.accounts_eq member] at absent
    rcases holds.free member mem with ⟨failed, _⟩ | ⟨entry, node, after, _, inLedger, loaded, rfl, _⟩
    · simp [MpContexts.mpTaskFree, found, notNull, failed]
    · have inBook : node.account ∈ memory.book (ledger ref) :=
        mem_filterMap.mpr ⟨entry, inLedger, by simp [loaded]⟩
      exact absurd (mem_map.mpr ⟨node.account, inBook, rfl⟩) absent

theorem Ledgers.owner_unique {one other block : Ref} (oneMember : one ∈ refs)
    (otherMember : other ∈ refs) (inOne : block ∈ (memory.book (ledger one)).map Prod.fst)
    (inOther : block ∈ (memory.book (ledger other)).map Prod.fst) : one = other := by
  by_contra different
  have once := (holds.booked.perm (books_perm oneMember)).once
  rw [map_append, nodup_append] at once
  obtain ⟨listed, inBook, rfl⟩ := mem_map.mp inOther
  have elsewhere : other ∈ refs.erase one :=
    (mem_erase_of_ne (Ne.symm different)).mpr otherMember
  exact once.2.2 _ inOne _ (mem_map_of_mem (mem_books elsewhere inBook)) rfl

theorem Ledgers.taskAlloc (size tID : Nat) (mallocedNode : Malloced memory mallocNode)
    (mallocedMem : Malloced memory mallocMem) :
    memory.mpTaskAlloc size tID mallocNode mallocMem = some (memory, 0) ∨
      mallocMem ≠ 0 ∧ ∃ owner after, memory.mpContextByTid tID = some owner ∧
        memory.mpTaskAlloc size tID mallocNode mallocMem = some (after, mallocMem) ∧
        after.accounts owner = memory.accounts owner ++ [(mallocMem, size)] := by
  rcases holds.linked.byTid_cases tID with ⟨found, _⟩ | ⟨owner, member, found, _⟩
  · exact .inl (by simp [MpContexts.mpTaskAlloc, found])
  have notNull := holds.linked.chain.ne_zero owner member
  rcases holds.alloc member size mallocedNode mallocedMem with
    failed | ⟨memNotNull, after, entries, ran, now, added, _⟩
  · exact .inl (by simp [MpContexts.mpTaskAlloc, found, notNull, failed])
  · refine .inr ⟨memNotNull, owner, after, found,
      by simp [MpContexts.mpTaskAlloc, found, notNull, ran], ?_⟩
    rw [now.linked.accounts_eq member, holds.linked.accounts_eq member, update_self, added]

theorem Ledgers.taskFree_own {owner mem : Ref} (found : memory.mpContextByTid tID = some owner)
    (notNull : owner ≠ 0) (owned : mem ∈ (memory.accounts owner).map Prod.fst) :
    ∃ size after, memory.mpTaskFree mem tID = some (after, 0) ∧
      after.accounts owner = (memory.accounts owner).erase (mem, size) := by
  have member : owner ∈ refs := by
    rcases holds.linked.byTid_cases tID with ⟨other, _⟩ | ⟨ref, member, other, _⟩
    · exact absurd (some.inj (found.symm.trans other)) notNull
    · exact some.inj (found.symm.trans other) ▸ member
  rw [holds.linked.accounts_eq member] at owned ⊢
  rcases holds.free member mem with ⟨_, absent, _⟩ |
    ⟨entry, node, after, _, inLedger, loaded, rfl, ran, spec⟩
  · exact absurd owned absent
  · refine ⟨node.size, after, by simp [MpContexts.mpTaskFree, found, notNull, ran], ?_⟩
    rw [spec.linked.accounts_eq member, update_self]
    exact (holds.released_book member inLedger loaded spec).1

end

variable [Zero σ] [DecidableEq κ] {s : LedgerLog σ κ}

/-- Every promised call returns, keeps the invariant, and touches the ledger of no context
but the one it is for. -/
theorem LedgerInvariant.call_spec (holds : LedgerInvariant s) {made : LedgerCall κ}
    (promised : s.Promised made) :
    ∃ after, s.call made = some after ∧ LedgerInvariant after ∧
      ∀ ref ∈ s.memory.contextList, ref ≠ s.target made →
        Untouched s.memory after.memory ref := by
  obtain ⟨refs, ledger, ledgers⟩ := holds.ledgers
  have linked := ledgers.linked
  rw [linked.contextList_eq]
  have same := ledgers.untouched_self
  cases made with
  | mpTaskRegister tID addtlargs mallocNode mallocState =>
    obtain ⟨mallocedNode, mallocedState⟩ := promised
    rcases mpTaskRegister_spec linked tID addtlargs mallocedNode mallocedState with
      failed | ⟨_, memory, ran, spec⟩
    · exact ⟨s, by simp [LedgerLog.call, failed], holds, fun ref member _ => same ref member⟩
    · obtain ⟨_, relinked⟩ := spec.linked
      obtain ⟨dynmems, blocks, empty, memheads⟩ := mpTaskRegister_frame spec.notNull ran
      obtain ⟨now, untouched⟩ := ledgers.append relinked spec.fresh dynmems blocks empty memheads
      exact ⟨{ s with memory := memory }, by simp [LedgerLog.call, ran],
        holds.keep ⟨_, _, now⟩ blocks, fun ref member _ => untouched ref member⟩
  | mpContextAppendNew mallocNode mallocState =>
    obtain ⟨mallocedNode, mallocedState⟩ := promised
    rcases mpContextAppendNew_spec linked mallocedNode mallocedState with
      failed | ⟨memory, ran, spec⟩
    · exact ⟨s, by simp [LedgerLog.call, failed], holds, fun ref member _ => same ref member⟩
    · obtain ⟨_, relinked⟩ := spec.linked
      obtain ⟨dynmems, blocks, empty, memheads⟩ := mpContextAppendNew_frame spec.notNull ran
      obtain ⟨now, untouched⟩ := ledgers.append relinked spec.fresh dynmems blocks empty memheads
      exact ⟨{ s with memory := memory }, by simp [LedgerLog.call, ran],
        holds.keep ⟨_, _, now⟩ blocks, fun ref member _ => untouched ref member⟩
  | taskEntry core context =>
    have member : context ∈ refs := linked.contextList_eq ▸ promised
    obtain ⟨now, untouched⟩ := ledgers.reframe
      ((linked.identified core context).switched core context) rfl rfl
    exact ⟨{ s with memory := (s.memory.identified core context).switched core context },
      by simp [LedgerLog.call, multipythonTaskEntry_spec linked core member],
      holds.keep ⟨_, _, now⟩ rfl, fun ref member _ => untouched ref member⟩
  | mpTaskSwitchedIn core tID =>
    rcases mpTaskSwitchedIn_spec linked core tID with ⟨ran, _⟩ | ⟨context, _, _, _, ran⟩
    · obtain ⟨now, untouched⟩ := ledgers.reframe (linked.running core tID) rfl rfl
      exact ⟨{ s with memory := s.memory.running core tID }, by simp [LedgerLog.call, ran],
        holds.keep ⟨_, _, now⟩ rfl, fun ref member _ => untouched ref member⟩
    · obtain ⟨now, untouched⟩ := ledgers.reframe
        ((linked.running core tID).switched core context) rfl rfl
      exact ⟨{ s with memory := (s.memory.running core tID).switched core context },
        by simp [LedgerLog.call, ran], holds.keep ⟨_, _, now⟩ rfl,
        fun ref member _ => untouched ref member⟩
  | mpTaskAlloc size tID mallocNode mallocMem =>
    obtain ⟨mallocedNode, mallocedMem, _⟩ := promised
    rcases linked.byTid_cases tID with ⟨found, _⟩ | ⟨owner, member, found, _⟩
    · exact ⟨s, by simp [LedgerLog.call, MpContexts.mpTaskAlloc, found], holds,
        fun ref member _ => same ref member⟩
    have notNull := linked.chain.ne_zero owner member
    rcases ledgers.alloc member size mallocedNode mallocedMem with
      failed | ⟨memNotNull, memory, _, ran, now, _, blocks, untouched⟩
    · exact ⟨s, by simp [LedgerLog.call, MpContexts.mpTaskAlloc, found, notNull, failed], holds,
        fun ref member _ => same ref member⟩
    · obtain ⟨_, _, _, _, free⟩ := mallocedMem.resolve_left memNotNull
      refine ⟨{ s with memory := memory, handed := mallocMem :: s.handed },
        by simp [LedgerLog.call, MpContexts.mpTaskAlloc, found, notNull, ran, memNotNull],
        holds.hand ⟨_, _, now⟩ free blocks, fun ref there different => untouched ref there ?_⟩
      simpa [LedgerLog.target, found] using different
  | mpTaskFree mem tID =>
    rcases linked.byTid_cases tID with ⟨found, _⟩ | ⟨owner, member, found, _⟩
    · have nothing : s.memory.mpTaskFreeFrees mem tID = [] := by
        simp [MpContexts.mpTaskFreeFrees, MpContexts.mpDynmemNodeByMem, found,
          mpDynmemRemoveFrees_null]
      exact ⟨s, by simp [LedgerLog.call, MpContexts.mpTaskFree, found, nothing], holds,
        fun ref member _ => same ref member⟩
    have notNull := linked.chain.ne_zero owner member
    rcases ledgers.free member mem with ⟨failed, _, absent⟩ |
      ⟨entry, node, memory, byMem, inLedger, loaded, rfl, ran, spec⟩
    · have nothing : s.memory.mpTaskFreeFrees mem tID = [] := by
        cases byMem : s.memory.mpDynmemNodeByMem mem owner with
        | none => simp [MpContexts.mpTaskFreeFrees, found, byMem]
        | some entry =>
          obtain rfl := absent entry byMem
          simp [MpContexts.mpTaskFreeFrees, found, byMem, mpDynmemRemoveFrees_null]
      exact ⟨s, by simp [LedgerLog.call, MpContexts.mpTaskFree, found, notNull, failed, nothing],
        holds, fun ref member _ => same ref member⟩
    · obtain ⟨now, blocks, untouched⟩ := ledgers.released member inLedger loaded spec
      have inBook : node.account ∈ s.memory.book (ledger owner) :=
        mem_filterMap.mpr ⟨entry, inLedger, by simp [loaded]⟩
      have allocated := ledgers.allocated member inBook
      refine ⟨{ s with memory := memory, freed := [node.mem] ++ s.freed }, ?_,
        holds.free ⟨_, _, now⟩ (nodup_singleton _) ?_ (by simpa using blocks),
        fun ref there different => untouched ref there ?_⟩
      · simp [LedgerLog.call, MpContexts.mpTaskFree, found, notNull, ran,
          ledgers.freeFrees_eq member found byMem inLedger loaded]
      · simp only [mem_singleton, forall_eq]
        exact isSome_iff_exists.mpr ⟨_, allocated⟩
      · simpa [LedgerLog.target, found] using different
  | mpTaskFreeAll tID =>
    rcases linked.byTid_cases tID with ⟨found, _⟩ | ⟨owner, member, found, _⟩
    · exact ⟨s, by simp [LedgerLog.call, MpContexts.mpTaskFreeAll, found,
        MpContexts.mpTaskFreeAllFrees, MpContexts.mpContextDynmemFreeAllFrees], holds,
        fun ref member _ => same ref member⟩
    have notNull := linked.chain.ne_zero owner member
    obtain ⟨memory, code, ran, now, freed, untouched⟩ := ledgers.freeAllOf member
    obtain ⟨allocated, blocks⟩ := ledgers.blocks_eq member freed
    refine ⟨{ s with memory := memory, freed := _ ++ s.freed }, ?_,
      holds.free ⟨_, _, now⟩ (ledgers.once member) allocated blocks,
      fun ref there different => untouched ref there ?_⟩
    · simp [LedgerLog.call, MpContexts.mpTaskFreeAll, found, notNull, ran,
        MpContexts.mpTaskFreeAllFrees, ledgers.freeAllFrees_eq member]
    · simpa [LedgerLog.target, found] using different
  | mpTaskRemove tID =>
    have kept : (s.memory.mpContextByTid tID = some s.memory.contextHead ∨
        s.memory.mpContextByTid tID = some 0) → s.memory.mpTaskRemoveFrees tID = [] := by
      rintro (found | found) <;> simp [MpContexts.mpTaskRemoveFrees, found]
    rcases mpTaskRemove_spec linked tID with ⟨ran, none⟩ | ⟨owner, member, notHead, found, _⟩
    · exact ⟨s, by simp [LedgerLog.call, ran, kept none], holds, fun ref member _ => same ref member⟩
    have notNull := linked.chain.ne_zero owner member
    obtain ⟨memory, ran, now, freed, untouched⟩ := ledgers.removeOf member notHead
    obtain ⟨allocated, blocks⟩ := ledgers.blocks_eq member freed
    refine ⟨{ s with memory := memory, freed := _ ++ s.freed }, ?_,
      holds.free ⟨_, _, now⟩ (ledgers.once member) allocated blocks,
      fun ref there different => untouched ref there ?_⟩
    · simp [LedgerLog.call, MpContexts.mpTaskRemove, MpContexts.mpTaskRemoveFrees, found, notHead,
        notNull, ran, ledgers.removeFrees_eq member notHead]
    · simpa [LedgerLog.target, found] using different
  | mpContextRemove context =>
    rcases mpContextRemove_cases linked promised with ⟨ran, other⟩ | ⟨member, notHead, _⟩
    · have predecessor : s.memory.mpContextPredecessor context = some 0 := by
        rcases other with rfl | unlisted
        · exact linked.predecessor_head
        · exact linked.predecessor_unlisted promised unlisted
      exact ⟨s, by simp [LedgerLog.call, ran, MpContexts.mpContextRemoveFrees, predecessor], holds,
        fun ref member _ => same ref member⟩
    obtain ⟨memory, ran, now, freed, untouched⟩ := ledgers.removeOf member notHead
    obtain ⟨allocated, blocks⟩ := ledgers.blocks_eq member freed
    refine ⟨{ s with memory := memory, freed := _ ++ s.freed }, ?_,
      holds.free ⟨_, _, now⟩ (ledgers.once member) allocated blocks,
      fun ref there different => untouched ref there different⟩
    simp [LedgerLog.call, ran, ledgers.removeFrees_eq member notHead]

/-- Every block that was handed out and not freed yet is in the ledger of exactly one context,
once, and the ledgers hold no other blocks. No block was freed more often than it was
handed out. `mp_task_alloc` records its block for the context, `mp_task_free` takes a block
of the context out, and for memory that the context does not own it returns the error and
changes nothing. No call touches the ledger of another context. -/
structure LedgersSound (s : LedgerLog σ κ) : Prop where
  recorded : ∀ block, s.handed.count block = s.freed.count block + 1 ↔
    ∃! ref, ref ∈ s.memory.contextList ∧ block ∈ (s.memory.accounts ref).map Prod.fst
  once : ∀ ref ∈ s.memory.contextList, ((s.memory.accounts ref).map Prod.fst).Nodup
  allocated : ∀ block size, s.memory.blocks block = some size ↔
    ∃ ref ∈ s.memory.contextList, (block, size) ∈ s.memory.accounts ref
  freedOnce : ∀ block, s.freed.count block ≤ s.handed.count block ∧
    s.handed.count block ≤ s.freed.count block + 1
  allocates : ∀ size tID mallocNode mallocMem,
    s.Promised (.mpTaskAlloc size tID mallocNode mallocMem) →
    s.memory.mpTaskAlloc size tID mallocNode mallocMem = some (s.memory, 0) ∨
      mallocMem ≠ 0 ∧ ∃ owner after, s.memory.mpContextByTid tID = some owner ∧
        s.memory.mpTaskAlloc size tID mallocNode mallocMem = some (after, mallocMem) ∧
        after.accounts owner = s.memory.accounts owner ++ [(mallocMem, size)]
  owned : ∀ mem tID owner, s.memory.mpContextByTid tID = some owner → owner ≠ 0 →
    mem ∈ (s.memory.accounts owner).map Prod.fst →
    ∃ size after, s.memory.mpTaskFree mem tID = some (after, 0) ∧
      after.accounts owner = (s.memory.accounts owner).erase (mem, size)
  unowned : ∀ mem tID, (∀ ref, s.memory.mpContextByTid tID = some ref → ref ≠ 0 →
      mem ∉ (s.memory.accounts ref).map Prod.fst) →
    s.memory.mpTaskFree mem tID = some (s.memory, -1)
  others : ∀ made, s.Promised made → ∃ after, s.call made = some after ∧
    ∀ ref ∈ s.memory.contextList, ref ≠ s.target made → Untouched s.memory after.memory ref

theorem LedgerInvariant.sound (holds : LedgerInvariant s) : LedgersSound s := by
  obtain ⟨refs, ledger, ledgers⟩ := holds.ledgers
  have listed := ledgers.linked.contextList_eq
  have accounts : ∀ ref ∈ refs, s.memory.accounts ref = s.memory.book (ledger ref) :=
    fun ref member => ledgers.linked.accounts_eq member
  refine ⟨fun block => ?_, fun ref member => ?_, fun block size => ?_, fun block => ?_,
    fun size tID _ _ promised => ledgers.taskAlloc size tID promised.1 promised.2.1,
    fun mem tID owner found notNull owned => ledgers.taskFree_own found notNull owned,
    fun mem tID unowned => ledgers.taskFree_other unowned, fun made promised => ?_⟩
  · have outstanding : s.handed.count block = s.freed.count block + 1 ↔
        (s.memory.blocks block).isSome = true := by
      rw [holds.balanced block]
      cases (s.memory.blocks block).isSome <;> simp
    rw [outstanding, listed, isSome_iff_exists]
    constructor
    · rintro ⟨size, allocated⟩
      obtain ⟨ref, member, inBook⟩ :=
        mem_flatMap.mp ((ledgers.booked.allocated block size).mp allocated)
      have here : block ∈ (s.memory.book (ledger ref)).map Prod.fst :=
        mem_map.mpr ⟨_, inBook, rfl⟩
      refine ⟨ref, ⟨member, (accounts ref member).symm ▸ here⟩, ?_⟩
      rintro other ⟨otherMember, there⟩
      rw [accounts other otherMember] at there
      exact ledgers.owner_unique otherMember member there here
    · rintro ⟨ref, ⟨member, there⟩, _⟩
      rw [accounts ref member] at there
      obtain ⟨entry, inBook, rfl⟩ := mem_map.mp there
      exact ⟨_, ledgers.allocated member inBook⟩
  · rw [listed] at member
    rw [accounts ref member]
    exact ledgers.once member
  · rw [ledgers.booked.allocated, listed, MpContexts.books, mem_flatMap]
    refine exists_congr fun ref => and_congr_right fun member => ?_
    rw [accounts ref member]
  · rw [holds.balanced block]
    cases (s.memory.blocks block).isSome <;> simp
  · obtain ⟨after, ran, _, untouched⟩ := holds.call_spec promised
    exact ⟨after, ran, untouched⟩

/-- In every run the ledgers are sound. -/
theorem ledgers_sound {defaultContext defaultState : Ref} {state : σ}
    {run : List (LedgerCall κ × LedgerLog σ κ)} (notNull : defaultContext ≠ 0)
    (bounded : defaultContext < addressSpace)
    (runs : Run LedgerLog.Step (LedgerLog.initial defaultContext defaultState state) run) :
    ∀ s ∈ visited (LedgerLog.initial defaultContext defaultState state) run, LedgersSound s := by
  have start : LedgerInvariant (LedgerLog.initial (κ := κ) defaultContext defaultState state) := by
    refine ⟨⟨_, _, MpContexts.initial_linked defaultState state notNull bounded, ?_⟩, ?_⟩
    · refine ⟨?_, ?_, ?_⟩ <;> simp [LedgerLog.initial, MpContexts.initial, MpContexts.books,
        MpContexts.book]
    · simp [LedgerLog.initial, MpContexts.initial]
  intro s member
  refine (runs.invariant _ start (fun holds stepped => ?_) s member).sound
  obtain ⟨after, ran, holdsAfter, _⟩ := holds.call_spec stepped.1
  exact some.inj (ran.symm.trans stepped.2) ▸ holdsAfter

end Step

/-- Two contexts allocate, one of them runs out of memory and is removed, and the other frees
its block after it has failed to free a block of the first. -/
theorem ledgers_sound_two_contexts :
    ∃ run : List (LedgerCall Bool × LedgerLog Nat Bool),
      (run.map fun taken => (taken.2.handed, taken.2.freed)) =
        [([], []), ([40], []), ([40], []), ([52, 40], []), ([52, 40], []), ([52, 40], [40]),
          ([52, 40], [52, 40])] ∧
      ∀ s ∈ visited (LedgerLog.initial 4 8 0) run, LedgersSound s := by
  let calls : List (LedgerCall Bool) := [.mpTaskRegister 7 0 16 20, .mpTaskAlloc 3 7 36 40,
    .mpTaskAlloc 3 7 44 0, .mpTaskAlloc 5 0 48 52, .mpTaskFree 40 0, .mpTaskRemove 7,
    .mpTaskFree 52 0]
  let start : LedgerLog Nat Bool := LedgerLog.initial 4 8 0
  have promised : ∀ taken ∈ fired start (trace LedgerLog.call start calls),
      taken.1.Promised taken.2 := by decide
  refine ⟨trace LedgerLog.call start calls, by decide,
    ledgers_sound (by decide) (by decide) ?_⟩
  exact Run.of_trace (fun s made => LedgerLog.Promised s made)
    (fun allowed happens => ⟨allowed, happens⟩) calls promised

end MultiPython.Context
