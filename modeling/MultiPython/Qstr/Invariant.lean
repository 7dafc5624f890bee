import MultiPython.Qstr.Pool

/-!
# The strings that the pools hold

`Holds` relates a pool entry to the string it stands for: the bytes are in memory that is
still allocated, and in the current chunk they lie below `qstr_last_used`.
`QstrInvariant` puts the entries of all pools in one list, in which the place of an entry
is its qstr. Each part of `qstr_from_strn` has one lemma that says what it does to
this list.
-/

namespace MultiPython.Qstr

open List Option Function

variable {config : QstrConfig} {s after : QstrState} {strings : List (List UInt8)}

/-! ## Bytes -/

@[simp] theorem lowBytes_length (count n : Nat) : (lowBytes count n).length = count := by
  induction count generalizing n with
  | zero => rfl
  | succ count ih => rw [lowBytes, length_cons, ih]

theorem fromBytes_lowBytes (count n : Nat) : fromBytes (lowBytes count n) = n % 256 ^ count := by
  induction count generalizing n with
  | zero => simp [lowBytes, fromBytes, Nat.mod_one]
  | succ count ih =>
    have low : (UInt8.ofNat n).toNat = n % 256 := by simp
    have split := Nat.mod_mul (x := n) (a := 256) (b := 256 ^ count)
    rw [lowBytes, fromBytes, ih, low, Nat.shiftRight_eq_div_pow,
      show 256 ^ (count + 1) = 256 * 256 ^ count from pow_succ' 256 count, split]

theorem isPrefix_drop_of_take_eq {bytes changed data : List UInt8} {used offset : Nat}
    (same : changed.take used = bytes.take used) (within : offset + data.length ≤ used)
    (here : data <+: bytes.drop offset) : data <+: changed.drop offset := by
  have window : ∀ list : List UInt8,
      (list.drop offset).take data.length = ((list.take used).drop offset).take data.length := by
    intro list
    rw [drop_take, take_take, Nat.min_eq_left (by omega)]
  rw [prefix_iff_eq_take] at here ⊢
  rw [window, same, ← window]
  exact here

/-- The sizes that the source allows for hash and length. -/
structure QstrConfig.Supported (config : QstrConfig) : Prop where
  hash : config.bytesInHash = 1 ∨ config.bytesInHash = 2
  len : config.bytesInLen = 1 ∨ config.bytesInLen = 2

theorem qstrComputeHash_bounds (supported : config.Supported) (data : List UInt8) :
    qstrComputeHash config data ≠ 0 ∧ qstrComputeHash config data < hashBound config := by
  have large : 1 < hashBound config := by
    rcases supported.hash with one | two
    · simp [hashBound, one]
    · simp [hashBound, two]
  unfold qstrComputeHash
  extract_lets hash masked
  have bounded : masked < hashBound config := Nat.mod_lt _ (by omega)
  split
  · omega
  · next nonzero => exact ⟨nonzero, bounded⟩

@[simp] theorem encode_length (str : List UInt8) :
    (encode config str).length = encodeSize config str := by
  simp only [encode, encodeSize, length_append, lowBytes_length, length_cons,
    length_nil]
  omega

theorem encode_read (supported : config.Supported) {str data : List UInt8}
    (short : str.length < 2 ^ (8 * config.bytesInLen)) (here : encode config str <+: data) :
    qGetHash config data = qstrComputeHash config str ∧ qGetLength config data = str.length ∧
      (qGetData config data).take str.length = str := by
  obtain ⟨rest, rfl⟩ := here
  have hashLength := lowBytes_length config.bytesInHash (qstrComputeHash config str)
  have lenLength := lowBytes_length config.bytesInLen str.length
  have pieces : encode config str ++ rest = lowBytes config.bytesInHash (qstrComputeHash config str) ++
      (lowBytes config.bytesInLen str.length ++ (str ++ ([0] ++ rest))) := by
    simp [encode]
  have dropHash : (encode config str ++ rest).drop config.bytesInHash =
      lowBytes config.bytesInLen str.length ++ (str ++ ([0] ++ rest)) := by
    rw [pieces, drop_left' hashLength]
  refine ⟨?_, ?_, ?_⟩
  · rw [qGetHash, pieces, take_left' hashLength, fromBytes_lowBytes]
    exact Nat.mod_eq_of_lt (qstrComputeHash_bounds supported str).2
  · rw [qGetLength, dropHash, take_left' lenLength, fromBytes_lowBytes]
    apply Nat.mod_eq_of_lt
    rwa [show (256 : Nat) = 2 ^ 8 from rfl, ← pow_mul]
  · rw [qGetData, ← drop_drop, dropHash, drop_left' lenLength, take_left' rfl]

theorem isStrn_encode (supported : config.Supported) {str other data : List UInt8}
    (short : other.length < 2 ^ (8 * config.bytesInLen)) (here : encode config other <+: data) :
    isStrn config str data = decide (other = str) := by
  obtain ⟨hash, length, content⟩ := encode_read supported short here
  rw [isStrn, hash, length]
  by_cases same : other = str
  · subst same
    simp [content]
  · have different : ¬(other.length = str.length ∧
        (qGetData config data).take str.length = str) := by
      rintro ⟨sameLength, isStr⟩
      rw [← sameLength, content] at isStr
      exact same isStr
    simp only [same, decide_false, Bool.and_eq_false_iff, beq_eq_false_iff_ne]
    by_contra! all
    exact different ⟨all.1.2, all.2⟩

theorem isStrn_null (supported : config.Supported) (str : List UInt8) {data : List UInt8}
    (null : qGetHash config data = 0) : isStrn config str data = false := by
  have nonzero := (qstrComputeHash_bounds supported str).1
  simp [isStrn, null, nonzero.symm]

/-! ## Entries -/

/-- The entry stands for the string; `MP_QSTR_NULL` stands for none. -/
def Holds (config : QstrConfig) (s : QstrState) : QPtr → Option (List UInt8) → Prop
  | .rom data, none => qGetHash config data = 0
  | .rom data, some str => encode config str <+: data
  | .chunk _ _, none => False
  | .chunk id offset, some str =>
    id < s.created ∧
      (∃ bytes, s.chunks id = some bytes ∧ encode config str <+: bytes.drop offset) ∧
      (s.lastChunk = some id → offset + encodeSize config str ≤ s.lastUsed)

/-- The entries of all pools, in the order of their qstrs. -/
def entries : List QstrPool → List QPtr
  | [] => []
  | pool :: prev => entries prev ++ pool.qstrs

/-- Every pool knows the number of qstrs before it. -/
def Cumulative : List QstrPool → Prop
  | [] => True
  | pool :: prev => pool.totalPrevLen = (entries prev).length ∧ Cumulative prev

/-- What each qstr stands for, if the strings are those behind `MP_QSTR_NULL`. -/
def names (strings : List (List UInt8)) : List (Option (List UInt8)) := none :: strings.map some

/-- The pools hold the strings, and the current chunk has the size it is taken for. -/
structure QstrInvariant (config : QstrConfig) (s : QstrState) (strings : List (List UInt8)) :
    Prop where
  cumulative : Cumulative s.pools
  named : List.Forall₂ (Holds config s) (entries s.pools) (names strings)
  distinct : strings.Nodup
  short : ∀ str ∈ strings, str.length < 2 ^ (8 * config.bytesInLen)
  /-- The collector finds the chunk of every entry. -/
  headed : ∀ {id offset}, .chunk id offset ∈ entries s.pools → .chunk id 0 ∈ entries s.pools
  /-- The next pool will have room. -/
  growing : ∃ last prev, s.pools = last :: prev ∧ (config.extraPool = true ∨ 0 < last.alloc)
  current : ∀ {id}, s.lastChunk = some id → id < s.created ∧ s.lastUsed ≤ s.lastAlloc ∧
    ∃ bytes, s.chunks id = some bytes ∧ bytes.length = s.lastAlloc

theorem Holds.read {ptr : QPtr} {str : List UInt8} (holds : Holds config s ptr (some str)) :
    ∃ data, s.read ptr = some data ∧ encode config str <+: data := by
  cases ptr with
  | rom data => exact ⟨data, rfl, holds⟩
  | chunk id offset =>
    obtain ⟨_, ⟨bytes, loaded, here⟩, _⟩ := holds
    exact ⟨bytes.drop offset, by simp [QstrState.read, loaded], here⟩

variable {pools : List QstrPool}

theorem entries_any {ptr : QPtr} :
    (pools.any fun pool => pool.qstrs.contains ptr) = true ↔ ptr ∈ entries pools := by
  induction pools with
  | nil => simp [entries]
  | cons pool prev ih =>
    rw [any_cons, Bool.or_eq_true, ih, entries, mem_append,
      contains_iff_mem, or_comm]

/-! ## Finding -/

variable {held : List (Option (List UInt8))}

/-- The inner loop finds the place of a string in a pool. -/
theorem qstrFindInPool_eq (supported : config.Supported) (str : List UInt8) {ptrs : List QPtr}
    (named : List.Forall₂ (Holds config s) ptrs held)
    (short : ∀ other, some other ∈ held → other.length < 2 ^ (8 * config.bytesInLen)) (index : Nat) :
    s.qstrFindInPool config str index ptrs =
      some ((held.findIdx? fun name => name = some str).map (index + ·)) := by
  induction named generalizing index with
  | nil => simp [QstrState.qstrFindInPool]
  | @cons ptr name ptrs held holds _ ih =>
    have later := ih (fun other member => short other (by simp [member]))
      (index + 1)
    have found : ∃ data, s.read ptr = some data ∧
        isStrn config str data = decide (name = some str) := by
      cases name with
      | none =>
        cases ptr with
        | rom data => exact ⟨data, rfl, by simpa using isStrn_null supported str holds⟩
        | chunk id offset => exact holds.elim
      | some other =>
        obtain ⟨data, loaded, here⟩ := holds.read
        refine ⟨data, loaded, ?_⟩
        rw [isStrn_encode supported (short other (by simp)) here]
        simp
    obtain ⟨data, loaded, isName⟩ := found
    rw [QstrState.qstrFindInPool, loaded, bind_eq_bind, bind_some, isName, later,
      findIdx?_cons]
    by_cases here : name = some str
    · simp [here]
    · simp only [here, decide_false, Bool.false_eq_true, if_false, Option.map_map]
      congr 1
      refine congrFun (congrArg Option.map ?_) _
      funext place
      simp only [comp_apply]
      omega

/-- The outer loop finds the qstr of a string: 0 if there is none. -/
theorem qstrFindInPools_eq (supported : config.Supported) (str : List UInt8)
    (cumulative : Cumulative pools) (named : List.Forall₂ (Holds config s) (entries pools) held)
    (short : ∀ other, some other ∈ held → other.length < 2 ^ (8 * config.bytesInLen))
    (distinct : held.Nodup) :
    s.qstrFindInPools config str pools =
      some ((held.findIdx? fun name => name = some str).getD 0) := by
  induction pools generalizing held with
  | nil =>
    cases named
    rfl
  | cons pool prev ih =>
    obtain ⟨total, cumulative⟩ := cumulative
    obtain ⟨earlier, here, rfl, namedEarlier, namedHere⟩ :
        ∃ earlier here, held = earlier ++ here ∧
          List.Forall₂ (Holds config s) (entries prev) earlier ∧
          List.Forall₂ (Holds config s) pool.qstrs here := by
      refine ⟨held.take (entries prev).length, held.drop (entries prev).length,
        (take_append_drop _ _).symm, ?_, ?_⟩
      · simpa [entries] using forall₂_take (entries prev).length named
      · simpa [entries] using forall₂_drop (entries prev).length named
    have shortEarlier := fun other member => short other (mem_append_left here member)
    have shortHere := fun other member => short other (mem_append_right earlier member)
    have later := ih cumulative namedEarlier shortEarlier
      (nodup_append.mp distinct).1
    rw [QstrState.qstrFindInPools, qstrFindInPool_eq supported str namedHere shortHere 0]
    cases found : here.findIdx? fun name => name = some str with
    | none =>
      rw [findIdx?_append, found]
      simpa using later
    | some index =>
      have absent : (earlier.findIdx? fun name => name = some str) = none := by
        rw [findIdx?_eq_none_iff]
        intro name member
        have there : some str ∈ here := by
          obtain ⟨bound, isStr, _⟩ := findIdx?_eq_some_iff_getElem.mp found
          rw [← of_decide_eq_true isStr]
          exact getElem_mem bound
        have apart := (nodup_append.mp distinct).2.2 name member (some str) there
        simpa using apart
      rw [findIdx?_append, absent, found]
      simp [total, namedEarlier.length_eq, Nat.add_comm]

theorem findQstr_eq (cumulative : Cumulative pools) (q : Nat) :
    QstrState.findQstr pools q = (entries pools)[q]? := by
  induction pools with
  | nil => simp [QstrState.findQstr, entries]
  | cons pool prev ih =>
    obtain ⟨total, cumulative⟩ := cumulative
    rw [QstrState.findQstr, entries, total]
    split
    · next early => rw [ih cumulative, List.getElem?_append_left early]
    · next late => rw [List.getElem?_append_right (not_lt.mp late)]

theorem names_nodup (distinct : strings.Nodup) : (names strings).Nodup := by
  rw [names, nodup_cons]
  exact ⟨by simp, distinct.map (some_injective _)⟩

namespace QstrInvariant

/-- `qstr_find_strn` returns the qstr of a string, or 0 if it has none. -/
theorem qstrFindStrn_cases (holds : QstrInvariant config s strings) (supported : config.Supported)
    (str : List UInt8) :
    (s.qstrFindStrn config str = some 0 ∧ str ∉ strings) ∨
      ∃ q, s.qstrFindStrn config str = some q ∧ q ≠ 0 ∧ (names strings)[q]? = some (some str) := by
  have short : ∀ other, some other ∈ names strings →
      other.length < 2 ^ (8 * config.bytesInLen) := by
    intro other member
    exact holds.short other (by simpa [names] using member)
  rw [QstrState.qstrFindStrn, qstrFindInPools_eq supported str holds.cumulative holds.named short
    (names_nodup holds.distinct)]
  cases found : (names strings).findIdx? fun name => name = some str with
  | none =>
    refine .inl ⟨rfl, fun member => ?_⟩
    rw [findIdx?_eq_none_iff] at found
    simpa using found (some str) (by simpa [names] using member)
  | some q =>
    obtain ⟨bound, isStr, _⟩ := findIdx?_eq_some_iff_getElem.mp found
    have isStr := of_decide_eq_true isStr
    refine .inr ⟨q, rfl, ?_, ?_⟩
    · rintro rfl
      cases isStr
    · rw [List.getElem?_eq_getElem bound, isStr]

theorem qstrData_eq (holds : QstrInvariant config s strings) (supported : config.Supported)
    {q : Nat} {str : List UInt8} (named : (names strings)[q]? = some (some str)) :
    s.qstrData config q = some str := by
  obtain ⟨bound, isStr⟩ := List.getElem?_eq_some_iff.mp named
  have inEntries : q < (entries s.pools).length := holds.named.length_eq ▸ bound
  have held : Holds config s ((entries s.pools)[q]) (some str) :=
    isStr ▸ holds.named.get inEntries bound
  have short := holds.short str (by
    have member := getElem_mem bound
    rw [isStr] at member
    simpa [names] using member)
  obtain ⟨data, loaded, here⟩ := held.read
  obtain ⟨_, length, content⟩ := encode_read supported short here
  rw [QstrState.qstrData, findQstr_eq holds.cumulative, List.getElem?_eq_getElem inEntries]
  simp [loaded, length, content]

/-! ## Memory -/

section

variable (holds : QstrInvariant config s strings)

include holds

theorem reframe (pools : after.pools = s.pools)
    (kept : ∀ ptr ∈ entries s.pools, ∀ name, Holds config s ptr name → Holds config after ptr name)
    (current : ∀ {id}, after.lastChunk = some id → id < after.created ∧ after.lastUsed ≤ after.lastAlloc ∧ ∃ bytes, after.chunks id = some bytes ∧ bytes.length = after.lastAlloc) :
    QstrInvariant config after strings := by
  have named : List.Forall₂ (Holds config after) (entries s.pools) (names strings) := by
    have before := forall₂_iff_zip.mp holds.named
    refine forall₂_iff_zip.mpr ⟨before.1, fun {ptr name} member => ?_⟩
    exact kept ptr (of_mem_zip member).1 name (before.2 member)
  exact ⟨pools ▸ holds.cumulative, pools ▸ named, holds.distinct, holds.short,
    pools ▸ holds.headed, pools ▸ holds.growing, current⟩

/-- A collection keeps what the pools use. The current chunk has to be among that, or
referenced otherwise. -/
theorem gcCollect {kept : Nat → Bool}
    (stored : ∀ id, s.lastChunk = some id → .chunk id 0 ∈ entries s.pools ∨ kept id = true) :
    QstrInvariant config (s.gcCollect kept) strings := by
  have survives : ∀ id, .chunk id 0 ∈ entries s.pools ∨ kept id = true →
      (s.gcCollect kept).chunks id = s.chunks id := by
    rintro id (inPool | isKept)
    · have found : s.headStored id = true := entries_any.mpr inPool
      simp [QstrState.gcCollect, found]
    · simp [QstrState.gcCollect, isKept]
  refine holds.reframe rfl (fun ptr member name held => ?_) fun {id} isLast => ?_
  · match ptr, name, held with
    | .rom _, none, held => exact held
    | .rom _, some _, held => exact held
    | .chunk id offset, some str, ⟨created, ⟨bytes, loaded, here⟩, used⟩ =>
      refine ⟨created, ⟨bytes, ?_, here⟩, used⟩
      rw [survives id (.inl (holds.headed member))]
      exact loaded
  · obtain ⟨created, used, bytes, loaded, size⟩ := holds.current isLast
    refine ⟨created, used, bytes, ?_, size⟩
    rw [survives id (stored id isLast)]
    exact loaded

theorem rewriteChunk {id : Nat} {bytes : List UInt8} (changed : List UInt8)
    (isLast : s.lastChunk = some id) (loaded : s.chunks id = some bytes)
    (same : changed.take s.lastUsed = bytes.take s.lastUsed)
    (chunks : after.chunks = Function.update s.chunks id (some changed))
    (pools : after.pools = s.pools) (created : after.created = s.created)
    (last : ∀ other, after.lastChunk = some other → other = id ∧ s.lastUsed ≤ after.lastUsed ∧ after.lastUsed ≤ after.lastAlloc ∧ changed.length = after.lastAlloc) :
    QstrInvariant config after strings := by
  refine holds.reframe pools (fun ptr _ name held => ?_) fun {other} isOther => ?_
  · match ptr, name, held with
    | .rom _, none, held => exact held
    | .rom _, some _, held => exact held
    | .chunk other offset, some str, ⟨old, ⟨otherBytes, otherLoaded, here⟩, used⟩ =>
      refine ⟨created.symm ▸ old, ?_, fun isOther => ?_⟩
      · by_cases isId : other = id
        · subst isId
          obtain rfl : bytes = otherBytes := some.inj (loaded.symm.trans otherLoaded)
          refine ⟨changed, by rw [chunks, update_self], ?_⟩
          exact isPrefix_drop_of_take_eq same (by simpa using used isLast) here
        · exact ⟨otherBytes, by rw [chunks, update_of_ne isId, otherLoaded], here⟩
      · obtain ⟨rfl, more, _⟩ := last other isOther
        exact (used isLast).trans more
  · obtain ⟨rfl, _, used, size⟩ := last other isOther
    obtain ⟨old, _⟩ := holds.current isLast
    exact ⟨created.symm ▸ old, used, changed, by rw [chunks, update_self], size⟩

theorem newChunk (size : Nat) (fill : Nat → UInt8) :
    QstrInvariant config (s.newChunk size fill) strings := by
  refine holds.reframe rfl (fun ptr _ name held => ?_) fun {id} isLast => ?_
  · match ptr, name, held with
    | .rom _, none, held => exact held
    | .rom _, some _, held => exact held
    | .chunk id offset, some str, ⟨old, ⟨bytes, loaded, here⟩, _⟩ =>
      have different : id ≠ s.created := Nat.ne_of_lt old
      refine ⟨old.trans (Nat.lt_succ_self _), ⟨bytes, ?_, here⟩, fun isLast => ?_⟩
      · exact (update_of_ne different _ _).trans loaded
      · exact absurd (some.inj isLast).symm different
  · obtain rfl := some.inj isLast
    exact ⟨Nat.lt_succ_self _, Nat.zero_le _, _, update_self _ _ _, by
      simp [QstrState.newChunk]⟩

end

end QstrInvariant

end MultiPython.Qstr
