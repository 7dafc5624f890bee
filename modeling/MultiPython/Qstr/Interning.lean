import MultiPython.Qstr.Invariant

/-!
# Interning is a stable bijection

A qstr denotes one string for ever, and a string has one qstr, along every run in which no
call starts a new chunk and then fails for want of a pool. Such a call leaves a chunk that no
pool points to; the next string goes into it behind the lost one, so that the collector
never finds the start of the chunk and frees it with the string in it.
-/

namespace MultiPython.Qstr

open Logic List Option

variable {config : QstrConfig} {s after : QstrState} {strings : List (List UInt8)}

namespace QstrState

/-- A call that needs `nBytes` gets a new chunk for them. -/
def startsChunk (s : QstrState) (nBytes : Nat) (allocations : Allocations) : Bool :=
  (s.lastChunk.isNone || s.full nBytes && !allocations.grows) &&
    (allocations.chunk.succeeds || allocations.exact.succeeds)

/-- The newest pool has no room. -/
def poolFull (s : QstrState) : Bool :=
  match s.pools with
  | [] => false
  | last :: _ => decide (last.alloc ≤ last.qstrs.length)

/-- A call for a new string that starts a chunk gets a pool if it needs one. -/
def chunkSecured (config : QstrConfig) (s : QstrState) (str : List UInt8)
    (allocations : Allocations) : Bool :=
  s.qstrFindStrn config str != some 0 || !s.startsChunk (encodeSize config str) allocations ||
    !s.poolFull || allocations.pool.succeeds

/-- The collector finds the current chunk. -/
def Stored (s : QstrState) : Prop :=
  ∀ id, s.lastChunk = some id → .chunk id 0 ∈ entries s.pools

end QstrState

namespace QstrInvariant

theorem collecting (holds : QstrInvariant config s strings) (rooted : Option QPtr)
    (allocation : Allocation)
    (stored : ∀ id, s.lastChunk = some id →
      .chunk id 0 ∈ entries s.pools ∨ rooted = some (.chunk id 0)) :
    QstrInvariant config (s.collecting rooted allocation) strings := by
  unfold QstrState.collecting
  split
  · exact holds
  · refine holds.gcCollect fun id isLast => ?_
    rcases stored id isLast with inPool | isRoot
    · exact .inl inPool
    · exact .inr (by simp [isRoot])

end QstrInvariant

/-- A collection changes nothing but the chunks. -/
theorem collecting_same (rooted : Option QPtr) (allocation : Allocation) :
    (s.collecting rooted allocation).pools = s.pools ∧
      (s.collecting rooted allocation).created = s.created ∧
      (s.collecting rooted allocation).lastChunk = s.lastChunk ∧
      (s.collecting rooted allocation).lastAlloc = s.lastAlloc ∧
      (s.collecting rooted allocation).lastUsed = s.lastUsed := by
  unfold QstrState.collecting
  split
  · exact ⟨rfl, rfl, rfl, rfl, rfl⟩
  · exact ⟨rfl, rfl, rfl, rfl, rfl⟩

variable {id offset : Nat} {str : List UInt8}

theorem Holds.collecting (held : Holds config s (.chunk id offset) (some str))
    (allocation : Allocation) (headed : .chunk id 0 ∈ entries s.pools ∨ offset = 0) :
    Holds config (s.collecting (some (.chunk id offset)) allocation) (.chunk id offset)
      (some str) := by
  obtain ⟨created, ⟨bytes, loaded, here⟩, used⟩ := held
  unfold QstrState.collecting
  split
  · exact ⟨created, ⟨bytes, loaded, here⟩, used⟩
  · refine ⟨created, ⟨bytes, ?_, here⟩, used⟩
    rcases headed with inPool | rfl
    · have found : s.headStored id = true := entries_any.mpr inPool
      simpa [QstrState.gcCollect, found] using loaded
    · simpa [QstrState.gcCollect] using loaded

section

variable (holds : QstrInvariant config s strings)

include holds

variable {prev : List QstrPool}

theorem QstrInvariant.newPool {last : QstrPool} (pools : s.pools = last :: prev) {alloc : Nat}
    (positive : 0 < alloc) :
    QstrInvariant config
        { s with pools := ⟨last.totalPrevLen + last.qstrs.length, alloc, []⟩ :: s.pools } strings ∧
      entries (⟨last.totalPrevLen + last.qstrs.length, alloc, []⟩ :: s.pools) = entries s.pools := by
  have cumulative := holds.cumulative
  have listed : entries (⟨last.totalPrevLen + last.qstrs.length, alloc, []⟩ :: s.pools) =
      entries s.pools := by
    simp [entries]
  have total : last.totalPrevLen + last.qstrs.length = (entries s.pools).length := by
    rw [pools] at cumulative ⊢
    rw [entries, length_append, cumulative.1]
  refine ⟨⟨⟨total, cumulative⟩, listed.symm ▸ holds.named, holds.distinct, holds.short,
    fun member => ?_, ⟨_, _, rfl, .inr positive⟩, holds.current⟩, listed⟩
  rw [listed] at member ⊢
  exact holds.headed member

/-- The first part of `qstr_from_strn`: the chunk has room now, or there is none. -/
theorem qstrGrow_spec (nBytes : Nat) (allocations : Allocations) :
    ∃ grown, s.qstrGrow nBytes allocations = some grown ∧ QstrInvariant config grown strings ∧
      grown.pools = s.pools ∧
      ((grown.lastChunk = none ∧ (s.lastChunk.isNone || s.full nBytes && !allocations.grows) = true) ∨
        grown.lastChunk = s.lastChunk ∧ grown.lastChunk.isSome = true ∧
          grown.lastUsed + nBytes ≤ grown.lastAlloc) := by
  cases isLast : s.lastChunk with
  | none =>
    exact ⟨s, by simp [QstrState.qstrGrow, isLast], holds, rfl, .inl ⟨isLast, rfl⟩⟩
  | some id =>
    obtain ⟨_, used, bytes, loaded, size⟩ := holds.current isLast
    by_cases full : s.full nBytes = true
    · by_cases grows : allocations.grows = true
      · let grown : QstrState :=
          { s with
            chunks := Function.update s.chunks id
              (some (bytes ++ (List.range nBytes).map allocations.fill))
            lastAlloc := s.lastAlloc + nBytes }
        refine ⟨grown, ?_, ?_, rfl, .inr ⟨isLast, by simp [grown, isLast], ?_⟩⟩
        · simp [QstrState.qstrGrow, isLast, full, grows, loaded, grown]
        · refine holds.rewriteChunk (bytes ++ (List.range nBytes).map allocations.fill) isLast
            loaded ?_ rfl rfl rfl fun other isOther => ⟨?_, le_rfl, ?_, ?_⟩
          · exact take_append_of_le_length (size ▸ used)
          · exact (some.inj (isLast.symm.trans isOther)).symm
          · exact used.trans (Nat.le_add_right _ _)
          · simp [size, grown]
        · exact Nat.add_le_add_right used nBytes
      · let trimmed : QstrState :=
          { s with
            chunks := Function.update s.chunks id (some (bytes.take s.lastUsed))
            lastChunk := none }
        refine ⟨trimmed, ?_, ?_, rfl, .inl ⟨rfl, by simp [full, grows]⟩⟩
        · simp [QstrState.qstrGrow, isLast, full, grows, loaded, trimmed]
        · refine holds.rewriteChunk (bytes.take s.lastUsed) isLast loaded ?_ rfl rfl rfl
            fun other isOther => ?_
          · rw [take_take, Nat.min_self]
          · cases isOther
    · refine ⟨s, by simp [QstrState.qstrGrow, isLast, full], holds, rfl,
        .inr ⟨isLast, by simp [isLast], ?_⟩⟩
      simpa [QstrState.full, isLast] using full

/-- The second part: a chunk with room, or none at all. -/
theorem qstrNewChunk_spec (stored : s.Stored) {nBytes : Nat} (allocations : Allocations)
    (room : s.lastChunk = none ∨ s.lastUsed + nBytes ≤ s.lastAlloc) :
    QstrInvariant config (s.qstrNewChunk config nBytes allocations).1 strings ∧
      (s.qstrNewChunk config nBytes allocations).1.pools = s.pools ∧
      ((s.qstrNewChunk config nBytes allocations).2 = true →
        (s.qstrNewChunk config nBytes allocations).1.lastUsed + nBytes ≤
            (s.qstrNewChunk config nBytes allocations).1.lastAlloc ∧
          ∃ id, (s.qstrNewChunk config nBytes allocations).1.lastChunk = some id ∧
            (.chunk id 0 ∈ entries s.pools ∨ s.lastChunk = none ∧
              (allocations.chunk.succeeds || allocations.exact.succeeds) = true ∧
              (s.qstrNewChunk config nBytes allocations).1.lastUsed = 0)) ∧
      ((s.qstrNewChunk config nBytes allocations).2 = false →
        (s.qstrNewChunk config nBytes allocations).1.lastChunk = none) := by
  cases isLast : s.lastChunk with
  | some id =>
    have same : s.qstrNewChunk config nBytes allocations = (s, true) := by
      simp [QstrState.qstrNewChunk, isLast]
    rw [same]
    refine ⟨holds, rfl, fun _ => ⟨?_, id, isLast, .inl (stored id isLast)⟩, by simp⟩
    rcases room with none | fits
    · cases isLast.symm.trans none
    · exact fits
  | none =>
    have nothing : ∀ id, s.lastChunk = some id →
        .chunk id 0 ∈ entries s.pools ∨ (none : Option QPtr) = some (.chunk id 0) := by
      simp [isLast]
    have first := holds.collecting none allocations.chunk nothing
    obtain ⟨firstPools, _, firstLast, _⟩ := collecting_same (s := s) none allocations.chunk
    by_cases chunk : allocations.chunk.succeeds = true
    · have taken : s.qstrNewChunk config nBytes allocations =
          ((s.collecting none allocations.chunk).newChunk (max nBytes config.chunkInit)
            allocations.fill, true) := by
        simp [QstrState.qstrNewChunk, isLast, chunk]
      rw [taken]
      refine ⟨first.newChunk _ _, firstPools, fun _ => ⟨?_, _, rfl, .inr ⟨rfl, by simp [chunk],
        rfl⟩⟩, by simp⟩
      simp [QstrState.newChunk]
    · have second := first.collecting none allocations.exact (by simp [firstLast, isLast])
      obtain ⟨secondPools, _, secondLast, _⟩ :=
        collecting_same (s := s.collecting none allocations.chunk) none allocations.exact
      by_cases exact : allocations.exact.succeeds = true
      · have taken : s.qstrNewChunk config nBytes allocations =
            (((s.collecting none allocations.chunk).collecting none allocations.exact).newChunk
              nBytes allocations.fill, true) := by
          simp [QstrState.qstrNewChunk, isLast, chunk, exact]
        rw [taken]
        refine ⟨second.newChunk _ _, secondPools.trans firstPools, fun _ => ⟨?_, _, rfl,
          .inr ⟨rfl, by simp [exact], rfl⟩⟩, by simp⟩
        simp [QstrState.newChunk]
      · have failed : s.qstrNewChunk config nBytes allocations =
            ((s.collecting none allocations.chunk).collecting none allocations.exact, false) := by
          simp [QstrState.qstrNewChunk, isLast, chunk, exact]
        rw [failed]
        exact ⟨second, secondPools.trans firstPools, by simp,
          fun _ => secondLast.trans (firstLast.trans isLast)⟩

theorem write_spec {id : Nat} (isLast : s.lastChunk = some id) (str : List UInt8)
    (room : s.lastUsed + encodeSize config str ≤ s.lastAlloc) :
    ∃ written, QstrState.write { s with lastUsed := s.lastUsed + encodeSize config str } id s.lastUsed
        (encode config str) = some written ∧
      QstrInvariant config written strings ∧ written.pools = s.pools ∧
      written.lastChunk = some id ∧ Holds config written (.chunk id s.lastUsed) (some str) := by
  obtain ⟨created, used, bytes, loaded, size⟩ := holds.current isLast
  have within : s.lastUsed ≤ bytes.length := size ▸ used
  have taken : (bytes.take s.lastUsed).length = s.lastUsed := by
    rw [length_take, Nat.min_eq_left within]
  let changed := bytes.take s.lastUsed ++
    (encode config str ++ bytes.drop (s.lastUsed + (encode config str).length))
  let written : QstrState :=
    { s with
      lastUsed := s.lastUsed + encodeSize config str
      chunks := Function.update s.chunks id (some changed) }
  refine ⟨written, ?_, ?_, rfl, isLast, created, ⟨changed, Function.update_self _ _ _, ?_⟩,
    fun _ => le_rfl⟩
  · simp [QstrState.write, loaded, size, room, written, changed]
  · refine holds.rewriteChunk changed isLast loaded ?_ rfl rfl rfl
      fun other isOther => ⟨?_, Nat.le_add_right _ _, room, ?_⟩
    · rw [take_left' taken]
    · exact (some.inj (isLast.symm.trans isOther)).symm
    · simp only [changed, length_append, taken, encode_length, length_drop, size, written]
      omega
  · rw [drop_left' taken]
    exact prefix_append _ _

/-- A pointer goes into the newest pool. -/
theorem qstrStore_spec (held : Holds config s (.chunk id offset) (some str)) (fresh : str ∉ strings)
    (short : str.length < 2 ^ (8 * config.bytesInLen))
    (headed : .chunk id 0 ∈ entries s.pools ∨ offset = 0) {last : QstrPool}
    (pools : s.pools = last :: prev) (room : last.qstrs.length < last.alloc) :
    ∃ stored, s.qstrStore (.chunk id offset) = some (stored, .ok (strings.length + 1)) ∧
      QstrInvariant config stored (strings ++ [str]) ∧ stored.lastChunk = s.lastChunk ∧
      .chunk id 0 ∈ entries stored.pools ∧ entries s.pools ⊆ entries stored.pools := by
  let stored : QstrState :=
    { s with pools := { last with qstrs := last.qstrs ++ [.chunk id offset] } :: prev }
  have cumulative := holds.cumulative
  rw [pools] at cumulative
  have listed : entries stored.pools = entries s.pools ++ [.chunk id offset] := by
    simp [stored, pools, entries]
  have place : last.totalPrevLen + last.qstrs.length = strings.length + 1 := by
    have length := holds.named.length_eq
    rw [pools, entries, length_append, ← cumulative.1, names, length_cons,
      length_map] at length
    exact length
  have named : names (strings ++ [str]) = names strings ++ [some str] := by
    simp [names]
  have head : .chunk id 0 ∈ entries stored.pools := by
    rw [listed]
    rcases headed with inPool | rfl
    · exact mem_append_left _ inPool
    · simp
  refine ⟨stored, ?_, ⟨⟨cumulative.1, cumulative.2⟩, ?_, ?_, ?_, ?_, ?_, holds.current⟩, rfl, head, ?_⟩
  · simp [QstrState.qstrStore, pools, room, place, stored]
  · rw [listed, named]
    exact rel_append holds.named (.cons held .nil)
  · exact List.Nodup.append holds.distinct (nodup_singleton str) (by simpa using fresh)
  · simp only [mem_append, mem_singleton]
    rintro other (member | rfl)
    · exact holds.short other member
    · exact short
  · intro other place member
    rw [listed, mem_append, mem_singleton] at member
    rcases member with member | same
    · rw [listed]
      exact mem_append_left _ (holds.headed member)
    · obtain rfl : other = id := (QPtr.chunk.inj same).1
      exact head
  · obtain ⟨otherLast, otherPrev, samePools, growing⟩ := holds.growing
    obtain ⟨rfl, rfl⟩ := List.cons.inj (pools.symm.trans samePools)
    exact ⟨_, _, rfl, growing⟩
  · rw [listed]
    exact subset_append_left _ _

end

/-- The pools and the current chunk are good for the next call. -/
def Ready (config : QstrConfig) (s : QstrState) (strings : List (List UInt8)) : Prop :=
  QstrInvariant config s strings ∧ s.Stored

/-- `qstr_add` of the bytes of a new string in the current chunk: the string gets the next qstr,
or the pool is missing and nothing is added. -/
theorem qstrAdd_spec (holds : QstrInvariant config s strings)
    (held : Holds config s (.chunk id offset) (some str)) (fresh : str ∉ strings)
    (short : str.length < 2 ^ (8 * config.bytesInLen)) (isLast : s.lastChunk = some id)
    (headed : .chunk id 0 ∈ entries s.pools ∨ offset = 0) (allocation : Allocation)
    (secured : .chunk id 0 ∈ entries s.pools ∨ s.poolFull = false ∨ allocation.succeeds = true) :
    ∃ added result, s.qstrAdd config (.chunk id offset) allocation = some (added, result) ∧
      (result = .ok (strings.length + 1) ∧ Ready config added (strings ++ [str]) ∨
        (∃ size, result = .error size) ∧ Ready config added strings) := by
  obtain ⟨last, prev, pools, growing⟩ := holds.growing
  by_cases full : last.alloc ≤ last.qstrs.length
  · let newAlloc := if config.extraPool then max allocQstrEntriesInit (last.alloc * 2)
      else last.alloc * 2
    let collected := s.collecting (some (.chunk id offset)) allocation
    obtain ⟨samePools, _, sameLast, _⟩ :=
      collecting_same (s := s) (some (.chunk id offset)) allocation
    have kept : ∀ other, s.lastChunk = some other → .chunk other 0 ∈ entries s.pools ∨
        some (QPtr.chunk id offset) = some (.chunk other 0) := by
      intro other isOther
      obtain rfl := some.inj (isLast.symm.trans isOther)
      exact headed.imp_right fun start => by rw [start]
    have holdsCollected : QstrInvariant config collected strings :=
      holds.collecting (some (.chunk id offset)) allocation kept
    by_cases succeeds : allocation.succeeds = true
    · let pooled : QstrState :=
        { collected with
          pools := ⟨last.totalPrevLen + last.qstrs.length, newAlloc, []⟩ :: collected.pools }
      have positive : 0 < newAlloc := by
        simp only [newAlloc]
        split
        · simp [allocQstrEntriesInit]
        · next plain =>
            have := growing.resolve_left plain
            omega
      obtain ⟨holdsPooled, listed⟩ := holdsCollected.newPool (samePools.trans pools) positive
      have listed : entries pooled.pools = entries s.pools :=
        listed.trans (congrArg entries samePools)
      have heldPooled : Holds config pooled (.chunk id offset) (some str) :=
        held.collecting allocation headed
      obtain ⟨stored, ran, holdsStored, lastStored, headStored, _⟩ := qstrStore_spec holdsPooled
        heldPooled fresh short (headed.imp_left fun member => listed.symm ▸ member) rfl positive
      refine ⟨stored, .ok (strings.length + 1), ?_, .inl ⟨rfl, holdsStored, fun other isOther => ?_⟩⟩
      · rw [← ran]
        simp [QstrState.qstrAdd, pools, full, succeeds, newAlloc, collected]
      · rw [lastStored, show pooled.lastChunk = s.lastChunk from sameLast, isLast] at isOther
        exact some.inj isOther ▸ headStored
    · refine ⟨collected, .error newAlloc, ?_, .inr ⟨⟨newAlloc, rfl⟩, holdsCollected,
        fun other isOther => ?_⟩⟩
      · simp [QstrState.qstrAdd, pools, full, succeeds, newAlloc, collected]
      · rw [show collected.lastChunk = s.lastChunk from sameLast, isLast] at isOther
        obtain rfl := some.inj isOther
        rw [show collected.pools = s.pools from samePools]
        rcases secured with inPool | notFull | succeeds'
        · exact inPool
        · simp [QstrState.poolFull, pools, full] at notFull
        · exact absurd succeeds' succeeds
  · obtain ⟨stored, ran, holdsStored, lastStored, headStored, _⟩ := qstrStore_spec holds held fresh
      short headed pools (Nat.lt_of_not_le full)
    refine ⟨stored, .ok (strings.length + 1), ?_, .inl ⟨rfl, holdsStored, fun other isOther => ?_⟩⟩
    · simp only [QstrState.qstrAdd, pools, full, if_false]
      exact ran
    · rw [lastStored, isLast] at isOther
      exact some.inj isOther ▸ headStored

/-- What `qstr_from_strn` does: it returns the qstr of a known string, gives a new string the
next one, or fails and adds nothing. -/
theorem qstrFromStrn_spec (supported : config.Supported) (ready : Ready config s strings)
    (short : str.length < 2 ^ (8 * config.bytesInLen)) (allocations : Allocations)
    (secured : s.chunkSecured config str allocations = true) :
    ∃ after result, s.qstrFromStrn config str allocations = some (after, result) ∧
      ((∃ q, result = .ok q ∧ (names strings)[q]? = some (some str) ∧ Ready config after strings) ∨
        (result = .ok (strings.length + 1) ∧ str ∉ strings ∧ Ready config after (strings ++ [str])) ∨
        (∃ size, result = .error size) ∧ Ready config after strings) := by
  obtain ⟨holds, stored⟩ := ready
  rcases holds.qstrFindStrn_cases supported str with ⟨notFound, fresh⟩ | ⟨q, found, isQstr, named⟩
  · obtain ⟨grown, ranGrow, holdsGrown, poolsGrown, chunkGrown⟩ :=
      qstrGrow_spec holds (encodeSize config str) allocations
    have storedGrown : grown.Stored := by
      intro id isLast
      rw [poolsGrown]
      rcases chunkGrown with ⟨none, _⟩ | ⟨same, _⟩
      · cases none.symm.trans isLast
      · exact stored id (same.symm.trans isLast)
    obtain ⟨holdsChunk, poolsChunk, allocated, exhausted⟩ := qstrNewChunk_spec holdsGrown storedGrown
      allocations (chunkGrown.imp (fun none => none.1) fun fits => fits.2.2)
    have unfolded : s.qstrFromStrn config str allocations =
        (let made := grown.qstrNewChunk config (encodeSize config str) allocations
        let s := made.1
        if made.2 then do
          let id ← s.lastChunk
          let offset := s.lastUsed
          let s ← { s with lastUsed := s.lastUsed + encodeSize config str }.write id offset
            (encode config str)
          s.qstrAdd config (.chunk id offset) allocations.pool
        else some (s, .error (encodeSize config str))) := by
      simp only [QstrState.qstrFromStrn, notFound, ranGrow, bind_eq_bind, bind_some,
        ne_eq, not_true_eq_false, if_false]
    generalize grown.qstrNewChunk config (encodeSize config str) allocations = made at *
    obtain ⟨chunk, succeeded⟩ := made
    cases succeeded with
    | false =>
      refine ⟨chunk, .error (encodeSize config str), unfolded, .inr (.inr ⟨⟨_, rfl⟩, holdsChunk,
        fun id isLast => ?_⟩)⟩
      cases (exhausted rfl).symm.trans isLast
    | true =>
      obtain ⟨room, id, isLast, headed⟩ := allocated rfl
      dsimp only at holdsChunk poolsChunk room isLast headed
      obtain ⟨written, ranWrite, holdsWritten, poolsWritten, lastWritten, held⟩ :=
        write_spec holdsChunk isLast str room
      have samePools : written.pools = s.pools :=
        poolsWritten.trans (poolsChunk.trans poolsGrown)
      have start : .chunk id 0 ∈ entries written.pools ∨ chunk.lastUsed = 0 := by
        rw [samePools, ← poolsGrown]
        exact headed.imp_right fun new => new.2.2
      have pool : .chunk id 0 ∈ entries written.pools ∨ written.poolFull = false ∨
          allocations.pool.succeeds = true := by
        rcases headed with inPool | ⟨isNone, allocates, _⟩
        · exact .inl (by rw [samePools, ← poolsGrown]; exact inPool)
        · right
          have starts : s.startsChunk (encodeSize config str) allocations = true := by
            rcases chunkGrown with ⟨_, starts⟩ | ⟨_, isSome, _⟩
            · rw [QstrState.startsChunk, starts, allocates]
              rfl
            · simp [isNone] at isSome
          have sameFull : written.poolFull = s.poolFull := by
            simp only [QstrState.poolFull, samePools]
          rw [sameFull]
          simpa [QstrState.chunkSecured, notFound, starts] using secured
      obtain ⟨added, result, ranAdd, outcome⟩ := qstrAdd_spec holdsWritten held fresh short
        lastWritten start allocations.pool pool
      refine ⟨added, result, ?_, .inr (outcome.imp_left fun ok => ⟨ok.1, fresh, ok.2⟩)⟩
      rw [unfolded]
      exact bind_eq_some_iff.mpr
        ⟨id, isLast, bind_eq_some_iff.mpr ⟨written, ranWrite, ranAdd⟩⟩
  · exact ⟨s, .ok q, by simp [QstrState.qstrFromStrn, found, isQstr],
      .inl ⟨q, rfl, named, holds, stored⟩⟩

/-! ## Every run -/

/-- What the build promises of the constant pools: no string twice, none too long, and at least
`MICROPY_ALLOC_QSTR_ENTRIES_INIT` entries. -/
structure ConstPools.WellBuilt (config : QstrConfig) (consts : ConstPools) : Prop where
  distinct : consts.strings.Nodup
  short : ∀ str ∈ consts.strings, str.length < 2 ^ (8 * config.bytesInLen)
  entries : allocQstrEntriesInit ≤ consts.base.length + 1
  extraPool : config.extraPool = consts.extra.isSome

/-- Every qstr that has been given out denotes its string, and strings have different qstrs
exactly if they are different. -/
structure Interner.Stable (config : QstrConfig) (s : Interner) : Prop where
  denotes : ∀ pair ∈ s.known, s.memory.qstrData config pair.2 = some pair.1
  bijective : ∀ pair ∈ s.known, ∀ other ∈ s.known, pair.1 = other.1 ↔ pair.2 = other.2

/-- A call that starts a chunk gets a pool if it needs one. -/
def Interner.Secured (config : QstrConfig) (s : Interner) : QstrEvent → Prop
  | .qstrFromStrn str allocations => s.memory.chunkSecured config str allocations = true
  | .gcCollect _ => True

instance (s : Interner) (event : QstrEvent) : Decidable (s.Secured config event) :=
  match event with
  | .qstrFromStrn str allocations =>
    inferInstanceAs (Decidable (s.memory.chunkSecured config str allocations = true))
  | .gcCollect _ => .isTrue trivial

/-- The strings of a history that are not among `consts`, each where it first occurs. -/
def newStrings (consts : List (List UInt8)) (known : List (List UInt8 × Nat)) :
    List (List UInt8) :=
  known.foldl (fun new pair => if pair.1 ∈ consts ++ new then new else new ++ [pair.1]) []

/-- All strings that have a qstr, in the order of their qstrs. -/
def Interner.interned (consts : ConstPools) (s : Interner) : List (List UInt8) :=
  consts.strings ++ newStrings consts.strings s.known

theorem newStrings_append (consts : List (List UInt8)) (known : List (List UInt8 × Nat))
    (pair : List UInt8 × Nat) :
    newStrings consts (known ++ [pair]) =
      if pair.1 ∈ consts ++ newStrings consts known then newStrings consts known
      else newStrings consts known ++ [pair.1] := by
  rw [newStrings, foldl_append]
  rfl

theorem mem_known_of_mem_newStrings {consts : List (List UInt8)} {known : List (List UInt8 × Nat)}
    (member : str ∈ newStrings consts known) : ∃ pair ∈ known, pair.1 = str := by
  induction known using reverseRecOn with
  | nil => cases member
  | append_singleton known pair ih =>
    rw [newStrings_append] at member
    split at member
    · obtain ⟨earlier, inKnown, same⟩ := ih member
      exact ⟨earlier, mem_append_left _ inKnown, same⟩
    · rcases mem_append.mp member with before | new
      · obtain ⟨earlier, inKnown, same⟩ := ih before
        exact ⟨earlier, mem_append_left _ inKnown, same⟩
      · exact ⟨pair, by simp, (mem_singleton.mp new).symm⟩

/-- The state between events: the known qstrs are places in the list of strings, and every
constant string is known. -/
structure InternerInvariant (config : QstrConfig) (consts : ConstPools) (s : Interner) : Prop where
  ready : Ready config s.memory (s.interned consts)
  known : ∀ pair ∈ s.known, (names (s.interned consts))[pair.2]? = some (some pair.1)
  consts : consts.strings.zipIdx 1 ⊆ s.known

namespace InternerInvariant

variable {consts : ConstPools} {s : Interner}

theorem stable (holds : InternerInvariant config consts s) (supported : config.Supported) :
    s.Stable config := by
  have invariant := holds.ready.1
  refine ⟨fun pair member => invariant.qstrData_eq supported (holds.known pair member), ?_⟩
  intro pair member other otherMember
  have here := holds.known pair member
  have there := holds.known other otherMember
  constructor
  · intro same
    rw [← same] at there
    obtain ⟨bound, _⟩ := List.getElem?_eq_some_iff.mp here
    exact (List.getElem?_inj bound (names_nodup invariant.distinct)).mp (here.trans there.symm)
  · intro same
    rw [← same, here] at there
    exact some.inj (some.inj there)

variable {str : List UInt8}

theorem names_append {q : Nat} (more : List (List UInt8))
    (named : (names strings)[q]? = some (some str)) :
    (names (strings ++ more))[q]? = some (some str) := by
  obtain ⟨bound, _⟩ := List.getElem?_eq_some_iff.mp named
  have split : names (strings ++ more) = names strings ++ more.map some := by
    simp [names]
  rw [split, List.getElem?_append_left bound]
  exact named

theorem place (holds : InternerInvariant config consts s) {q : Nat} (known : (str, q) ∈ s.known) :
    ∃ index, q = index + 1 ∧ (s.interned consts)[index]? = some str := by
  have named := holds.known _ known
  cases q with
  | zero => simp [names] at named
  | succ index =>
    refine ⟨index, rfl, ?_⟩
    simpa [names] using named

theorem known_of_place (holds : InternerInvariant config consts s) {index : Nat}
    (named : (s.interned consts)[index]? = some str) : (str, index + 1) ∈ s.known := by
  have member := mem_of_getElem? named
  obtain ⟨q, known⟩ : ∃ q, (str, q) ∈ s.known := by
    rcases mem_append.mp member with isConst | isNew
    · obtain ⟨index, bound, rfl⟩ := getElem_of_mem isConst
      exact ⟨index + 1, holds.consts (List.mk_mem_zipIdx_iff_le_and_getElem?_sub.mpr
        ⟨by omega, List.getElem?_eq_getElem bound⟩)⟩
    · obtain ⟨⟨_, q⟩, inKnown, rfl⟩ := mem_known_of_mem_newStrings isNew
      exact ⟨q, inKnown⟩
  obtain ⟨place, rfl, there⟩ := holds.place known
  obtain ⟨bound, _⟩ := List.getElem?_eq_some_iff.mp named
  obtain rfl := (List.getElem?_inj bound holds.ready.1.distinct).mp (named.trans there.symm)
  exact known

/-- Every event happens, and leaves the state in order if it is secured. -/
theorem next_spec (holds : InternerInvariant config consts s) (supported : config.Supported)
    {event : QstrEvent} (fits : Interner.Fits config event) (secured : s.Secured config event) :
    ∃ after, s.next config event = some after ∧ InternerInvariant config consts after := by
  cases event with
  | gcCollect kept =>
    obtain ⟨invariant, stored⟩ := holds.ready
    exact ⟨_, rfl, ⟨invariant.gcCollect fun id isLast => .inl (stored id isLast), stored⟩,
      holds.known, holds.consts⟩
  | qstrFromStrn str allocations =>
    obtain ⟨after, result, ran, outcome⟩ := qstrFromStrn_spec supported holds.ready fits allocations
      secured
    rcases outcome with ⟨q, rfl, named, ready⟩ | ⟨rfl, fresh, ready⟩ | ⟨⟨size, rfl⟩, ready⟩
    · have old : str ∈ s.interned consts := by
        have member := mem_of_getElem? named
        simpa [names] using member
      have same : Interner.interned consts ⟨after, s.known ++ [(str, q)]⟩ = s.interned consts := by
        rw [Interner.interned, newStrings_append, if_pos (by exact old)]
        rfl
      refine ⟨⟨after, s.known ++ [(str, q)]⟩, by simp [Interner.next, ran], same.symm ▸ ready,
        fun pair member => ?_, fun pair member => mem_append_left _ (holds.consts member)⟩
      rw [same]
      rcases mem_append.mp member with before | new
      · exact holds.known pair before
      · rw [mem_singleton.mp new]
        exact named
    · have longer : Interner.interned consts
          ⟨after, s.known ++ [(str, (s.interned consts).length + 1)]⟩ =
            s.interned consts ++ [str] := by
        rw [Interner.interned, newStrings_append, if_neg (by exact fresh), ← append_assoc]
        rfl
      refine ⟨⟨after, s.known ++ [(str, (s.interned consts).length + 1)]⟩,
        by simp [Interner.next, ran], longer.symm ▸ ready,
        fun pair member => ?_, fun pair member => mem_append_left _ (holds.consts member)⟩
      rw [longer]
      rcases mem_append.mp member with before | new
      · exact names_append [str] (holds.known pair before)
      · rw [mem_singleton.mp new]
        simp [names]
    · exact ⟨{ s with memory := after }, by simp [Interner.next, ran], ready, holds.known,
        holds.consts⟩

end InternerInvariant

theorem interned_qstrInit (consts : ConstPools) :
    (Interner.qstrInit config consts).interned consts = consts.strings := by
  have none : newStrings consts.strings (consts.strings.zipIdx 1) = [] := by
    refine foldlRecOn _ _ (motive := fun new => new = []) rfl fun new isNil pair member => ?_
    have inConsts : pair.1 ∈ consts.strings := by
      obtain ⟨_, _, isStr⟩ := mem_zipIdx member
      rw [isStr]
      exact getElem_mem _
    rw [if_pos (mem_append_left _ inConsts)]
    exact isNil
  rw [Interner.interned,
    show newStrings consts.strings (Interner.qstrInit config consts).known = [] from none,
    append_nil]

/-- `qstr_init` starts with the constant strings. -/
theorem qstrInit_invariant {consts : ConstPools} (built : consts.WellBuilt config) :
    InternerInvariant config consts (Interner.qstrInit config consts) := by
  have null : qGetHash config (nullEntry config) = 0 := by
    have zeros : ∀ count : Nat, fromBytes (List.replicate count 0) = 0 := by
      intro count
      induction count with
      | zero => rfl
      | succ count ih =>
        rw [replicate_succ, fromBytes, ih]
        rfl
    rw [qGetHash, nullEntry, take_left' (length_replicate ..), zeros]
  have roms : ∀ (s : QstrState) (strings : List (List UInt8)),
      List.Forall₂ (Holds config s) (strings.map fun str => .rom (encode config str))
        (strings.map some) := by
    intro s strings
    induction strings with
    | nil => exact .nil
    | cons str rest ih =>
      exact .cons (prefix_refl _) ih
  have listed : entries (consts.pools config) = .rom (nullEntry config) ::
      consts.strings.map fun str => .rom (encode config str) := by
    cases extra : consts.extra with
    | none => simp [ConstPools.pools, ConstPools.strings, entries, extra]
    | some strings => simp [ConstPools.pools, ConstPools.strings, entries, extra]
  have noChunk : ∀ id offset, .chunk id offset ∉ entries (consts.pools config) := by
    simp [listed]
  have nothingNew := @interned_qstrInit config consts
  refine ⟨nothingNew.symm ▸ ⟨⟨?_, ?_, built.distinct, built.short, fun {id offset} member => ?_, ?_,
    fun isLast => ?_⟩, fun id isLast => ?_⟩, fun pair member => ?_, List.Subset.refl _⟩
  · cases extra : consts.extra with
    | none => simp [Interner.qstrInit, ConstPools.pools, Cumulative, entries, extra]
    | some strings => simp [Interner.qstrInit, ConstPools.pools, Cumulative, entries, extra]
  · rw [show entries (Interner.qstrInit config consts).memory.pools = _ from listed]
    exact .cons null (roms _ _)
  · exact absurd member (noChunk id offset)
  · cases extra : consts.extra with
    | none =>
      exact ⟨_, _, by simp only [Interner.qstrInit, ConstPools.pools, extra]; rfl,
        .inr (show 0 < allocQstrEntriesInit by decide)⟩
    | some strings =>
      exact ⟨_, _, by simp only [Interner.qstrInit, ConstPools.pools, extra]; rfl,
        .inl (by rw [built.extraPool, extra]; rfl)⟩
  · cases isLast
  · cases isLast
  · obtain ⟨late, bound, isStr⟩ := mem_zipIdx member
    have place : pair.2 - 1 < consts.strings.length := by omega
    rw [nothingNew, names, show pair.2 = (pair.2 - 1) + 1 by omega, List.getElem?_cons_succ, List.getElem?_map,
      List.getElem?_eq_getElem place, isStr]
    rfl

section

variable {consts : ConstPools} (supported : config.Supported) (built : consts.WellBuilt config)
  {run : List (QstrEvent × Interner)}
  (runs : Run (Interner.Step config) (Interner.qstrInit config consts) run)
  (secured : ∀ taken ∈ fired (Interner.qstrInit config consts) run, taken.1.Secured config taken.2)

include consts supported built run runs secured

/-- Along a run in which a call that starts a chunk gets the pool it needs, the invariant
holds. -/
theorem interner_invariant :
    ∀ s ∈ visited (Interner.qstrInit config consts) run, InternerInvariant config consts s :=
  runs.invariant_of_fired (InternerInvariant config consts) (Interner.Secured config)
    (qstrInit_invariant built)
    (fun holds isSecured stepped => by
      obtain ⟨after, ran, holdsAfter⟩ := holds.next_spec supported stepped.1 isSecured
      exact some.inj (ran.symm.trans stepped.2) ▸ holdsAfter) secured

/-- Interning is a stable bijection along every run in which a call that starts a chunk gets the
pool it needs: in every state every qstr given out so far denotes its string, equal
strings have equal qstrs and different ones different qstrs, and the next call returns. -/
theorem interning_stable :
    ∀ s ∈ visited (Interner.qstrInit config consts) run, s.Stable config ∧
      ∀ event, Interner.Fits config event → s.Secured config event →
        (s.next config event).isSome = true := by
  intro s member
  have holds := interner_invariant supported built runs secured s member
  refine ⟨holds.stable supported, fun event fits isSecured => ?_⟩
  obtain ⟨after, ran, _⟩ := holds.next_spec supported fits isSecured
  rw [ran]
  rfl

end

/-- The sizes of the default configuration on a 32 bit machine. -/
def defaultConfig : QstrConfig := ⟨2, 1, 128, 32, false⟩

/-- Nine constant strings, and with them a full constant pool. -/
def nineConsts : ConstPools := ⟨(List.range 9).map fun n => [UInt8.ofNat (97 + n)], none⟩

/-- All allocations succeed without a collection, apart from that of a pool if `pool` says so. -/
def plentiful (pool : Bool) : Allocations :=
  ⟨true, ⟨none, true⟩, ⟨none, true⟩, ⟨none, pool⟩, fun _ => 0⟩

/-- Two strings are interned, one of them twice, with a collection in between. -/
theorem interning_stable_two :
    ∃ run, Run (Interner.Step defaultConfig) (Interner.qstrInit defaultConfig nineConsts) run ∧
      (run.map fun taken => taken.2.known.drop 9) =
        [[([120], 10)], [([120], 10)], [([120], 10), ([121], 11)],
          [([120], 10), ([121], 11), ([120], 10)]] ∧
      ∀ s ∈ visited (Interner.qstrInit defaultConfig nineConsts) run, s.Stable defaultConfig := by
  let start := Interner.qstrInit defaultConfig nineConsts
  let run := trace (Interner.next defaultConfig) start
    [.qstrFromStrn [120] (plentiful true), .gcCollect fun _ => false,
      .qstrFromStrn [121] (plentiful true), .qstrFromStrn [120] (plentiful true)]
  have runs : Run (Interner.Step defaultConfig) start run :=
    Run.of_trace (fun _ event => Interner.Fits defaultConfig event)
      (fun fits happens => ⟨fits, happens⟩) _ (by decide +kernel)
  refine ⟨run, runs, by decide +kernel, fun s member => ?_⟩
  exact (interning_stable ⟨Or.inr rfl, Or.inl rfl⟩ ⟨by decide, by decide, by decide, rfl⟩ runs
    (by decide +kernel) s member).1

/-- The pool for the first string of a new chunk cannot be allocated. The second string goes into
the same chunk and gets a qstr, and the next collection frees the chunk. -/
theorem qstrFromStrn_loses_string :
    ∃ run, Run (Interner.Step defaultConfig) (Interner.qstrInit defaultConfig nineConsts) run ∧
      (run.map Prod.fst).length = 3 ∧
      ∃ s ∈ visited (Interner.qstrInit defaultConfig nineConsts) run,
        ([121], 10) ∈ s.known ∧ s.memory.qstrData defaultConfig 10 = none ∧
          ¬s.Stable defaultConfig := by
  let start := Interner.qstrInit defaultConfig nineConsts
  let run := trace (Interner.next defaultConfig) start
    [.qstrFromStrn [120] (plentiful false), .qstrFromStrn [121] (plentiful true),
      .gcCollect fun _ => false]
  have runs : Run (Interner.Step defaultConfig) start run :=
    Run.of_trace (fun _ event => Interner.Fits defaultConfig event)
      (fun fits happens => ⟨fits, happens⟩) _ (by decide +kernel)
  let last := (visited start run).getLast (cons_ne_nil _ _)
  have known : ([121], 10) ∈ last.known := by decide +kernel
  have lost : last.memory.qstrData defaultConfig 10 = none := by decide +kernel
  refine ⟨run, runs, by decide +kernel, last, getLast_mem _, known, lost, fun stable => ?_⟩
  have denotes := stable.denotes _ known
  simp [lost] at denotes

end MultiPython.Qstr
