import MultiPython.Qstr.Interning

/-!
# Qstrs in persistent code

`save_qstr` and `load_qstr` of `py/persistentcode.c`. Both sides keep a window of the last qstrs,
each with the numbers that its own pools give to the strings: a qstr of the window is written as
its distance from the head. The slots are `uint16_t`. The writer's window is all zeros at first,
the reader's holds whatever was in its memory.
-/

namespace MultiPython.Vm

open MultiPython.Qstr

/-- `QSTR_LAST_STATIC`, the number of `MP_QSTR_zip`. -/
def qstrLastStatic : Nat := 165

/-- `qstr_window_t`. -/
structure QstrWindow where
  /-- The head. -/
  idx : Fin 32
  window : Vector Nat 32

section Window

variable {α : Type} {size : Nat}

/-- `memmove` of `count` slots that begin at `idx + 1`, one slot down. -/
def memmoveDown (window : Vector α size) (idx count : Nat) : Vector α size :=
  Vector.ofFn fun i =>
    if inside : (idx ≤ i.val ∧ i.val < idx + count) ∧ i.val + 1 < size then window[i.val + 1]
    else window[i]

/-- The slots after `qstr_window_pull`. -/
def pulled (head idx : Fin 32) (window : Vector α 32) : Vector α 32 :=
  let qst := window[idx]
  if head < idx then
    let moved := memmoveDown window idx (32 - idx.val - 1)
    let joined := moved.set 31 moved[0]
    (memmoveDown joined 0 head).set head qst
  else (memmoveDown window idx (head.val - idx.val)).set head qst

end Window

def qstrWindowPush (qw : QstrWindow) (qst : Nat) : QstrWindow :=
  let idx := qw.idx + 1
  { idx := idx, window := qw.window.set idx (qst % 2 ^ 16) }

/-- The window after `qstr_window_pull`, which returns the qstr of the slot. -/
def qstrWindowPull (qw : QstrWindow) (idx : Fin 32) : QstrWindow :=
  { qw with window := pulled qw.idx idx qw.window }

/-- The slot at a distance from the head. The number of values of a `size_t` is a multiple of the
size of the window. -/
def slotAt (head : Fin 32) (distance : Nat) : Fin 32 :=
  ⟨((head.val + 32 - distance : Int) % 32).toNat, by omega⟩

/-- `qstr_window_access`: the qstr, and the window after it. -/
def qstrWindowAccess (qw : QstrWindow) (distance : Nat) : Nat × QstrWindow :=
  let idx := slotAt qw.idx distance
  (qw.window[idx], qstrWindowPull qw idx)

/-- The loop of `qstr_window_insert`. -/
def findSlot (qw : QstrWindow) (qst : Nat) : Option (Fin 32) :=
  (List.finRange 32).find? fun idx => qw.window[idx] == qst

/-- `qstr_window_insert`: the distance of a qstr of the window, and the window after it. -/
def qstrWindowInsert (qw : QstrWindow) (qst : Nat) : Nat × QstrWindow :=
  match findSlot qw qst with
  | some idx => ((qw.idx.val + 32 - idx.val) % 32, qstrWindowPull qw idx)
  | none => (32, qstrWindowPush qw qst)

/-! ## Bytes -/

/-- The loop of `mp_print_uint`, with the bytes that the buffer has room for. -/
def printUintLoop : Nat → Nat → List UInt8 → List UInt8
  | 0, _, p => p
  | room + 1, n, p =>
    if n ≠ 0 then printUintLoop room (n >>> 7) (UInt8.ofNat (0x80 ||| (n &&& 0x7f)) :: p) else p

/-- `mp_print_uint`, in a buffer of `BYTES_FOR_INT` bytes. -/
def mpPrintUint (wordBits n : Nat) : List UInt8 :=
  printUintLoop ((wordBits + 6) / 7 - 1) (n >>> 7) [UInt8.ofNat (n &&& 0x7f)]

/-- The loop of `read_uint`, which does not end at the end of a file. -/
def readUint (wordBits : Nat) : List UInt8 → Nat → Option (Nat × List UInt8)
  | [], _ => none
  | b :: bytes, unum =>
    let unum := (unum <<< 7 ||| (b.toNat &&& 0x7f)) % 2 ^ wordBits
    if b.toNat &&& 0x80 = 0 then some (unum, bytes) else readUint wordBits bytes unum

/-! ## Saving and loading -/

/-- `save_qstr`: the bytes, and the window after them. -/
def saveQstr (config : QstrConfig) (pools : QstrState) (qw : QstrWindow) (qst : Nat) :
    Option (List UInt8 × QstrWindow) :=
  if qst ≤ qstrLastStatic then some ([0, UInt8.ofNat (qst &&& 0xff)], qw)
  else
    let inserted := qstrWindowInsert qw qst
    if inserted.1 < 32 then
      some (mpPrintUint config.wordBits (inserted.1 <<< 1 ||| 1), inserted.2)
    else do
      let str ← pools.qstrData config qst
      some (mpPrintUint config.wordBits (str.length <<< 1) ++ str, inserted.2)

/-- What the reader has: its pools, its window and the rest of the file. -/
structure QstrReader where
  pools : QstrState
  qw : QstrWindow
  bytes : List UInt8

/-- The allocations of `load_qstr`: the memory of the string that is read, and those of
`qstr_from_strn`. -/
structure LoadAllocations where
  str : Allocation
  intern : Allocations

/-- `load_qstr`; an error is a call of `m_malloc_fail`. -/
def loadQstr (config : QstrConfig) (reader : QstrReader) (allocations : LoadAllocations) :
    Option (Except Nat (Nat × QstrReader)) := do
  let read ← readUint config.wordBits reader.bytes 0
  if read.1 = 0 then do
    let qst ← read.2.head?
    some (.ok (qst.toNat, { reader with bytes := read.2.tail }))
  else if read.1 % 2 = 1 then
    let accessed := qstrWindowAccess reader.qw (read.1 >>> 1)
    some (.ok (accessed.1, { reader with qw := accessed.2, bytes := read.2 }))
  else
    let len := read.1 >>> 1
    let pools := reader.pools.collecting none allocations.str
    if allocations.str.succeeds then
      if len ≤ read.2.length then do
        let interned ← pools.qstrFromStrn config (read.2.take len) allocations.intern
        some (interned.2.map fun qst => (qst,
          { pools := interned.1, qw := qstrWindowPush reader.qw qst, bytes := read.2.drop len }))
      else none
    else some (.error len)

/-- Save a sequence of qstrs. -/
def saveQstrs (config : QstrConfig) (pools : QstrState) :
    QstrWindow → List Nat → Option (List UInt8 × QstrWindow)
  | qw, [] => some ([], qw)
  | qw, qst :: qsts => do
      let saved ← saveQstr config pools qw qst
      let rest ← saveQstrs config pools saved.2 qsts
      some (saved.1 ++ rest.1, rest.2)

/-- Load a sequence of qstrs. -/
def loadQstrs (config : QstrConfig) :
    QstrReader → List LoadAllocations → Option (Except Nat (List Nat × QstrReader))
  | reader, [] => some (.ok ([], reader))
  | reader, allocations :: more => do
      match ← loadQstr config reader allocations with
      | .error size => some (.error size)
      | .ok loaded => do
          match ← loadQstrs config loaded.2 more with
          | .error size => some (.error size)
          | .ok rest => some (.ok (loaded.1 :: rest.1, rest.2))

/-! ## The bytes of a number -/

theorem shiftLeft_or_eq (unum low : Nat) :
    unum <<< 7 ||| (low &&& 0x7f) = unum * 128 + low % 128 := by
  have isLow : low &&& 0x7f = low % 128 := Nat.and_two_pow_sub_one_eq_mod low 7
  have below : low % 128 < 2 ^ 7 := Nat.mod_lt _ (by decide)
  have joined := Nat.two_pow_add_eq_or_of_lt below unum
  rw [isLow, Nat.shiftLeft_eq, Nat.mul_comm, ← joined, Nat.mul_comm]

theorem marked_toNat (n : Nat) : (UInt8.ofNat (0x80 ||| (n &&& 0x7f))).toNat = 128 + n % 128 := by
  have isLow : n &&& 0x7f = n % 128 := Nat.and_two_pow_sub_one_eq_mod n 7
  have below : n % 128 < 2 ^ 7 := Nat.mod_lt _ (by decide)
  have joined := Nat.two_pow_add_eq_or_of_lt below 1
  have isSum : 0x80 ||| n % 128 = 128 + n % 128 := joined.symm
  rw [isLow, isSum, UInt8.toNat_ofNat']
  omega

theorem marked_and (n : Nat) : (128 + n % 128) &&& 0x80 ≠ 0 := by
  intro isZero
  have bit := congrArg (fun m => m.testBit 7) isZero
  simp only [Nat.testBit_and, Nat.zero_testBit] at bit
  have marked : (128 + n % 128).testBit 7 = true := by
    rw [Nat.testBit_eq_decide_div_mod_eq]
    have isOne : (128 + n % 128) / 2 ^ 7 = 1 := by omega
    rw [isOne]
    rfl
  rw [marked] at bit
  cases bit

theorem readUint_printUintLoop (wordBits : Nat) {room n : Nat} (fits : n < 2 ^ (7 * room))
    (p : List UInt8) :
    readUint wordBits (printUintLoop room n p) 0 = readUint wordBits p (n % 2 ^ wordBits) := by
  induction room generalizing n p with
  | zero =>
    have isZero : n = 0 := by simpa using fits
    rw [printUintLoop, isZero, Nat.zero_mod]
  | succ room ih =>
    rw [printUintLoop]
    split_ifs with more
    · have smaller : n >>> 7 < 2 ^ (7 * room) := by
        rw [Nat.shiftRight_eq_div_pow, Nat.div_lt_iff_lt_mul (by decide), ← Nat.pow_add]
        exact fits
      have isByte : ((n >>> 7) % 2 ^ wordBits * 128 + (128 + n % 128) % 128) % 2 ^ wordBits =
          n % 2 ^ wordBits := by
        have isLow : (128 + n % 128) % 128 = n % 128 := by omega
        have whole : n >>> 7 * 128 + n % 128 = n := by
          rw [Nat.shiftRight_eq_div_pow]
          omega
        rw [isLow, Nat.add_mod, Nat.mod_mul_mod, ← Nat.add_mod, whole]
      rw [ih smaller, readUint]
      simp only [marked_toNat, marked_and, if_false]
      rw [shiftLeft_or_eq, isByte]
    · have isZero : n = 0 := not_not.mp more
      rw [isZero, Nat.zero_mod]

/-- `read_uint` reads what `mp_print_uint` has printed. -/
theorem readUint_mpPrintUint {wordBits other n : Nat} (fits : n < 2 ^ wordBits)
    (fitsOther : n < 2 ^ other) (rest : List UInt8) :
    readUint other (mpPrintUint wordBits n ++ rest) 0 = some (n, rest) := by
  have appended (room m : Nat) (p : List UInt8) :
      printUintLoop room m p ++ rest = printUintLoop room m (p ++ rest) := by
    induction room generalizing m p with
    | zero => rfl
    | succ room ih =>
      rw [printUintLoop, printUintLoop]
      split_ifs
      · exact ih _ _
      · rfl
  have smaller : n >>> 7 < 2 ^ (7 * ((wordBits + 6) / 7 - 1)) := by
    rw [Nat.shiftRight_eq_div_pow, Nat.div_lt_iff_lt_mul (by decide), ← Nat.pow_add]
    exact fits.trans_le (Nat.pow_le_pow_right (by decide) (by omega))
  have isLow : n &&& 0x7f = n % 128 := Nat.and_two_pow_sub_one_eq_mod n 7
  have isByte : (UInt8.ofNat (n % 128)).toNat = n % 128 := by
    rw [UInt8.toNat_ofNat']
    omega
  have unmarked : (n % 128) &&& 0x80 = 0 := by
    apply Nat.eq_of_testBit_eq
    intro i
    rw [Nat.testBit_and, Nat.zero_testBit, Bool.and_eq_false_iff]
    by_cases top : i = 7
    · left
      rw [top]
      exact Nat.testBit_lt_two_pow (Nat.mod_lt _ (by decide))
    · right
      have isBit : (0x80 : Nat) = 2 ^ 7 := rfl
      rw [isBit, Nat.testBit_two_pow]
      simpa using fun isSeven => top isSeven.symm
  rw [mpPrintUint, appended, readUint_printUintLoop other smaller, List.singleton_append, readUint,
    isLow]
  simp only [isByte, unmarked, if_true]
  rw [shiftLeft_or_eq, Nat.mod_mod]
  have whole : n >>> 7 * 128 + n % 128 = n := by
    rw [Nat.shiftRight_eq_div_pow]
    omega
  have below : n >>> 7 < 2 ^ other := (Nat.shiftRight_le n 7).trans_lt fitsOther
  rw [Nat.mod_eq_of_lt below, whole, Nat.mod_eq_of_lt fitsOther]

/-! ## Windows in step -/

section Slots

variable {α β : Type} {size : Nat} {r : α → β → Prop} {window : Vector α size}
  {other : Vector β size}

theorem memmoveDown_slots (slots : ∀ i : Fin size, r window[i] other[i]) (idx count : Nat)
    (i : Fin size) : r (memmoveDown window idx count)[i] (memmoveDown other idx count)[i] := by
  rw [memmoveDown, memmoveDown]
  simp only [Fin.getElem_fin, Vector.getElem_ofFn]
  split_ifs with inside
  · exact slots ⟨i + 1, inside.2⟩
  · exact slots i

theorem set_slots (slots : ∀ i : Fin size, r window[i] other[i]) {item : α} {image : β}
    (same : r item image) (idx : Nat) (inside : idx < size) (i : Fin size) :
    r (window.set idx item inside)[i] (other.set idx image inside)[i] := by
  simp only [Fin.getElem_fin, Vector.getElem_set]
  split_ifs
  · exact same
  · exact slots i

theorem pulled_slots {window : Vector α 32} {other : Vector β 32}
    (slots : ∀ i : Fin 32, r window[i] other[i]) (head idx i : Fin 32) :
    r (pulled head idx window)[i] (pulled head idx other)[i] := by
  rw [pulled, pulled]
  split_ifs with wraps
  · apply set_slots _ (slots idx)
    apply memmoveDown_slots
    apply set_slots
    · exact memmoveDown_slots slots _ _
    · exact memmoveDown_slots slots _ _ 0
  · apply set_slots _ (slots idx)
    exact memmoveDown_slots slots _ _

end Slots

/-- Two numbers of one string. A slot that is zero has not been filled. -/
def SameString (wstrings rstrings : List (List UInt8)) (written loaded : Nat) : Prop :=
  written ≠ 0 →
    ∃ name, (names wstrings)[written]? = some name ∧ (names rstrings)[loaded]? = some name

/-- The reader's window holds the strings of the writer's in all slots that the writer filled. -/
structure InStep (wstrings rstrings : List (List UInt8)) (writer reader : QstrWindow) : Prop where
  head : writer.idx = reader.idx
  slots : ∀ i : Fin 32, SameString wstrings rstrings writer.window[i] reader.window[i]

section Steps

variable {wstrings rstrings more : List (List UInt8)} {writer reader : QstrWindow}
  {written loaded : Nat}

theorem names_extend {q : Nat} {name : Option (List UInt8)} (grown : rstrings <+: more)
    (named : (names rstrings)[q]? = some name) : (names more)[q]? = some name := by
  obtain ⟨added, rfl⟩ := grown
  have inside := (List.getElem?_eq_some_iff.mp named).1
  have isSplit : names (rstrings ++ added) = names rstrings ++ added.map some := by
    simp [names]
  rw [isSplit, List.getElem?_append_left inside]
  exact named

theorem SameString.mono (same : SameString wstrings rstrings written loaded)
    (grown : rstrings <+: more) : SameString wstrings more written loaded := by
  intro filled
  obtain ⟨name, isWritten, isLoaded⟩ := same filled
  exact ⟨name, isWritten, names_extend grown isLoaded⟩

theorem inStep_start (window : Vector Nat 32) :
    InStep wstrings rstrings ⟨0, Vector.replicate 32 0⟩ ⟨0, window⟩ := by
  refine ⟨rfl, ?_⟩
  intro i filled
  simp at filled

theorem InStep.push (inStep : InStep wstrings rstrings writer reader) (grown : rstrings <+: more)
    (smallWritten : written < 2 ^ 16) (smallLoaded : loaded < 2 ^ 16)
    (same : SameString wstrings more written loaded) :
    InStep wstrings more (qstrWindowPush writer written) (qstrWindowPush reader loaded) := by
  obtain ⟨head, slots⟩ := inStep
  cases writer with
  | mk idx window =>
    cases reader with
    | mk ridx other =>
      simp only at head slots
      subst head
      refine ⟨rfl, ?_⟩
      simp only [qstrWindowPush, Nat.mod_eq_of_lt smallWritten, Nat.mod_eq_of_lt smallLoaded]
      apply set_slots _ same
      intro i
      exact (slots i).mono grown

theorem InStep.pull (inStep : InStep wstrings rstrings writer reader) (idx : Fin 32) :
    InStep wstrings rstrings (qstrWindowPull writer idx) (qstrWindowPull reader idx) := by
  refine ⟨inStep.head, ?_⟩
  intro i
  rw [qstrWindowPull, qstrWindowPull, inStep.head]
  exact pulled_slots inStep.slots reader.idx idx i

theorem slotAt_distance (head idx : Fin 32) :
    slotAt head ((head.val + 32 - idx.val) % 32) = idx := by
  apply Fin.ext
  have headSmall := head.isLt
  have idxSmall := idx.isLt
  simp only [slotAt]
  omega

end Steps

/-! ## One qstr -/

/-- The static qstrs, which are the same in all builds; the first one is the empty string. -/
structure SharedStatics (wstrings rstrings : List (List UInt8)) : Prop where
  same : ∀ q ≤ qstrLastStatic, (names wstrings)[q]? = (names rstrings)[q]?
  listed : qstrLastStatic < (names wstrings).length
  empty : (names wstrings)[1]? = some (some [])

/-- A writer and a reader, each with its own pools. -/
structure Sides (wconfig rconfig : QstrConfig) (writer : QstrState) (wstrings : List (List UInt8)) :
    Prop where
  supported : wconfig.Supported
  rsupported : rconfig.Supported
  /-- A length is narrower than a word. -/
  narrow : 8 * wconfig.bytesInLen < wconfig.wordBits
  rnarrow : 8 * rconfig.bytesInLen < rconfig.wordBits
  written : QstrInvariant wconfig writer wstrings
  /-- The `assert` of `qstr_from_strn`. -/
  fits : ∀ str ∈ wstrings, str.length < 2 ^ (8 * rconfig.bytesInLen)

/-- The strings of a pool after a name is interned. -/
def internName (strings : List (List UInt8)) : Option (List UInt8) → List (List UInt8)
  | none => strings
  | some str => if strings.elem str then strings else strings ++ [str]

variable {strings : List (List UInt8)}

theorem internName_old {str : List UInt8} (isIn : str ∈ strings) :
    internName strings (some str) = strings :=
  if_pos (List.elem_iff.mpr isIn)

theorem internName_new {str : List UInt8} (isNew : str ∉ strings) :
    internName strings (some str) = strings ++ [str] :=
  if_neg fun isElem => isNew (List.elem_iff.mp isElem)

/-- No allocation fails. -/
structure LoadAllocations.Succeed (allocations : LoadAllocations) : Prop where
  str : allocations.str.succeeds = true
  chunk : allocations.intern.chunk.succeeds = true
  pool : allocations.intern.pool.succeeds = true

section One

variable {config wconfig rconfig : QstrConfig} {writer pools : QstrState}
  {wstrings rstrings : List (List UInt8)} {qw rqw : QstrWindow} {qst : Nat}
  {allocations : LoadAllocations}

theorem prefix_internName (strings : List (List UInt8)) (name : Option (List UInt8)) :
    strings <+: internName strings name := by
  cases name with
  | none => exact List.prefix_rfl
  | some str =>
    by_cases isIn : str ∈ strings
    · rw [internName_old isIn]
    · rw [internName_new isIn]
      exact List.prefix_append _ _

theorem internName_of_named {name : Option (List UInt8)} {q : Nat}
    (named : (names rstrings)[q]? = some name) : internName rstrings name = rstrings := by
  cases name with
  | none => rfl
  | some str =>
    have isIn : some str ∈ names rstrings := List.mem_of_getElem? named
    exact internName_old (by simpa [names] using isIn)

/-- Only a failing allocation is an error of `qstr_from_strn`. -/
theorem qstrFromStrn_succeeds {after : QstrState} {str : List UInt8} {intern : Allocations}
    {size : Nat} (chunk : intern.chunk.succeeds = true) (pool : intern.pool.succeeds = true) :
    pools.qstrFromStrn config str intern ≠ some (after, .error size) := by
  intro ran
  have stored (s : QstrState) (ptr : QPtr) : s.qstrStore ptr ≠ some (after, .error size) := by
    rw [QstrState.qstrStore]
    split
    · simp
    · split_ifs <;> simp
  have added (s : QstrState) (ptr : QPtr) :
      s.qstrAdd config ptr intern.pool ≠ some (after, .error size) := by
    cases isPools : s.pools with
    | nil => simp [QstrState.qstrAdd, isPools]
    | cons last prev =>
      by_cases full : last.alloc ≤ last.qstrs.length
      · simp only [QstrState.qstrAdd, isPools, if_pos full, pool, if_true]
        exact stored _ _
      · simp only [QstrState.qstrAdd, isPools, if_neg full]
        exact stored _ _
  have made (s : QstrState) (nBytes : Nat) : (s.qstrNewChunk config nBytes intern).2 = true := by
    rw [QstrState.qstrNewChunk]
    split
    · rfl
    · rw [if_pos chunk]
  rw [QstrState.qstrFromStrn] at ran
  simp only [Option.bind_eq_bind, Option.bind_eq_some_iff] at ran
  obtain ⟨q, -, ran⟩ := ran
  split_ifs at ran
  · cases ran
  · obtain ⟨grown, -, ran⟩ := Option.bind_eq_some_iff.mp ran
    rw [if_pos (made grown _)] at ran
    obtain ⟨id, -, ran⟩ := Option.bind_eq_some_iff.mp ran
    obtain ⟨written, -, ran⟩ := Option.bind_eq_some_iff.mp ran
    exact added _ _ ran

theorem qstrFromStrn_interns (supported : config.Supported) (ready : Ready config pools rstrings)
    {str : List UInt8} (short : str.length < 2 ^ (8 * config.bytesInLen)) {intern : Allocations}
    (chunk : intern.chunk.succeeds = true) (pool : intern.pool.succeeds = true) :
    ∃ after q, pools.qstrFromStrn config str intern = some (after, .ok q) ∧
      Ready config after (internName rstrings (some str)) ∧
      (names (internName rstrings (some str)))[q]? = some (some str) := by
  have secured : pools.chunkSecured config str intern = true := by
    rw [QstrState.chunkSecured, pool, Bool.or_true]
  obtain ⟨after, result, ran, ⟨q, rfl, named, holds⟩ | ⟨rfl, fresh, holds⟩ | ⟨⟨size, rfl⟩, -⟩⟩ :=
    qstrFromStrn_spec supported ready short intern secured
  · rw [internName_of_named named]
    exact ⟨after, q, ran, holds, named⟩
  · rw [internName_new fresh]
    refine ⟨after, _, ran, holds, ?_⟩
    simp [names]
  · exact absurd ran (qstrFromStrn_succeeds chunk pool)

/-- What is written for one qstr is loaded as a qstr of its string, and the windows stay in step. -/
def LoadsBack (wconfig rconfig : QstrConfig) (writer pools : QstrState)
    (wstrings rstrings : List (List UInt8)) (qw rqw : QstrWindow) (qst : Nat)
    (name : Option (List UInt8)) (allocations : LoadAllocations) : Prop :=
  ∃ bytes next loaded after rnext, saveQstr wconfig writer qw qst = some (bytes, next) ∧
    (∀ rest, loadQstr rconfig ⟨pools, rqw, bytes ++ rest⟩ allocations =
      some (.ok (loaded, ⟨after, rnext, rest⟩))) ∧
    Ready rconfig after (internName rstrings name) ∧
    InStep wstrings (internName rstrings name) next rnext ∧
    (names (internName rstrings name))[loaded]? = some name

theorem static_loadsBack (ready : Ready rconfig pools rstrings)
    (inStep : InStep wstrings rstrings qw rqw) (statics : SharedStatics wstrings rstrings)
    {name : Option (List UInt8)} (named : (names wstrings)[qst]? = some name)
    (static : qst ≤ qstrLastStatic) :
    LoadsBack wconfig rconfig writer pools wstrings rstrings qw rqw qst name allocations := by
  have isSame : (names rstrings)[qst]? = some name := (statics.same qst static).symm.trans named
  refine ⟨_, _, qst, pools, rqw, if_pos static, ?_, ?_, ?_, ?_⟩
  · intro rest
    have isByte : (UInt8.ofNat (qst &&& 0xff)).toNat = qst := by
      have isLow : qst &&& 0xff = qst % 256 := Nat.and_two_pow_sub_one_eq_mod qst 8
      have small : qst ≤ 165 := static
      rw [isLow, UInt8.toNat_ofNat']
      omega
    have read : readUint rconfig.wordBits ([0, UInt8.ofNat (qst &&& 0xff)] ++ rest) 0 =
        some (0, UInt8.ofNat (qst &&& 0xff) :: rest) := by
      simp [readUint]
    rw [loadQstr]
    simp only [read, Option.bind_eq_bind, Option.bind_some, if_true, List.head?_cons,
      List.tail_cons, isByte]
  · rw [internName_of_named isSame]
    exact ready
  · rw [internName_of_named isSame]
    exact inStep
  · rw [internName_of_named isSame]
    exact isSame

/-- A qstr of the window. -/
theorem windowed_loadsBack (sides : Sides wconfig rconfig writer wstrings)
    (ready : Ready rconfig pools rstrings) (inStep : InStep wstrings rstrings qw rqw)
    {name : Option (List UInt8)} (named : (names wstrings)[qst]? = some name)
    (dynamic : ¬ qst ≤ qstrLastStatic) {idx : Fin 32} (found : findSlot qw qst = some idx) :
    LoadsBack wconfig rconfig writer pools wstrings rstrings qw rqw qst name allocations := by
  have isSlot : qw.window[idx] = qst := by
    have isFound := List.find?_some found
    simpa using isFound
  have nonzero : qw.window[idx] ≠ 0 := by
    rw [isSlot]
    omega
  obtain ⟨other, isWritten, isLoaded⟩ := inStep.slots idx nonzero
  rw [isSlot, named, Option.some.injEq] at isWritten
  rw [← isWritten] at isLoaded
  have inserted : qstrWindowInsert qw qst =
      ((qw.idx.val + 32 - idx.val) % 32, qstrWindowPull qw idx) := by
    simp only [qstrWindowInsert, found]
  have near : (qw.idx.val + 32 - idx.val) % 32 < 32 := Nat.mod_lt _ (by decide)
  have wordy (config : QstrConfig) (narrow : 8 * config.bytesInLen < config.wordBits)
      (supported : config.Supported) : 64 ≤ 2 ^ config.wordBits := by
    have atLeast : 6 ≤ config.wordBits := by
      rcases supported.len with one | two
      · omega
      · omega
    exact Nat.pow_le_pow_right (n := 2) (by decide) atLeast
  have isOdd (distance : Nat) : distance <<< 1 ||| 1 = 2 * distance + 1 := by
    have joined := @Nat.two_pow_add_eq_or_of_lt 1 1 (by decide) distance
    rw [Nat.shiftLeft_eq, Nat.mul_comm, ← joined, Nat.pow_one]
  have read (rest : List UInt8) : readUint rconfig.wordBits
      (mpPrintUint wconfig.wordBits (((qw.idx.val + 32 - idx.val) % 32) <<< 1 ||| 1) ++ rest) 0 =
        some (((qw.idx.val + 32 - idx.val) % 32) <<< 1 ||| 1, rest) := by
    have small : ((qw.idx.val + 32 - idx.val) % 32) <<< 1 ||| 1 < 64 := by
      rw [isOdd]
      omega
    exact readUint_mpPrintUint (small.trans_le (wordy _ sides.narrow sides.supported))
      (small.trans_le (wordy _ sides.rnarrow sides.rsupported)) rest
  refine ⟨mpPrintUint wconfig.wordBits (((qw.idx.val + 32 - idx.val) % 32) <<< 1 ||| 1),
    qstrWindowPull qw idx, rqw.window[idx], pools, qstrWindowPull rqw idx, ?_, ?_, ?_, ?_, ?_⟩
  · rw [saveQstr, if_neg dynamic, inserted]
    exact if_pos near
  · intro rest
    have isBack : slotAt rqw.idx ((qw.idx.val + 32 - idx.val) % 32) = idx := by
      rw [inStep.head]
      exact slotAt_distance _ _
    have half : (2 * ((qw.idx.val + 32 - idx.val) % 32) + 1) >>> 1 =
        (qw.idx.val + 32 - idx.val) % 32 := by
      rw [Nat.shiftRight_eq_div_pow]
      omega
    have odd : (2 * ((qw.idx.val + 32 - idx.val) % 32) + 1) % 2 = 1 := by omega
    have some_ : ¬ 2 * ((qw.idx.val + 32 - idx.val) % 32) + 1 = 0 := by omega
    rw [loadQstr]
    simp only [read, Option.bind_eq_bind, Option.bind_some]
    simp only [isOdd, if_neg some_, if_pos odd, half, qstrWindowAccess, isBack]
  · rw [internName_of_named isLoaded]
    exact ready
  · rw [internName_of_named isLoaded]
    exact inStep.pull idx
  · rw [internName_of_named isLoaded]
    exact isLoaded

theorem shifted_length_lt {str : List UInt8} (narrow : 8 * config.bytesInLen < config.wordBits)
    (short : str.length < 2 ^ (8 * config.bytesInLen)) :
    str.length <<< 1 < 2 ^ config.wordBits := by
  have wide : 2 ^ (8 * config.bytesInLen + 1) ≤ 2 ^ config.wordBits :=
    Nat.pow_le_pow_right (by decide) narrow
  rw [Nat.pow_succ] at wide
  rw [Nat.shiftLeft_eq, Nat.pow_one]
  omega

theorem loadQstr_string {str rest : List UInt8} {wordBits q : Nat} {after : QstrState}
    (nonempty : 0 < str.length) (fits : str.length <<< 1 < 2 ^ wordBits)
    (fitsOther : str.length <<< 1 < 2 ^ config.wordBits)
    (succeeds : allocations.str.succeeds = true)
    (interned : (pools.collecting none allocations.str).qstrFromStrn config str allocations.intern =
      some (after, .ok q)) :
    loadQstr config ⟨pools, rqw, mpPrintUint wordBits (str.length <<< 1) ++ (str ++ rest)⟩
      allocations = some (.ok (q, ⟨after, qstrWindowPush rqw q, rest⟩)) := by
  have isEven : str.length <<< 1 = 2 * str.length := by
    rw [Nat.shiftLeft_eq, Nat.pow_one, Nat.mul_comm]
  have some_ : ¬ 2 * str.length = 0 := by omega
  have even : ¬ 2 * str.length % 2 = 1 := by omega
  have half : (2 * str.length) >>> 1 = str.length := by
    rw [Nat.shiftRight_eq_div_pow]
    omega
  have inside : str.length ≤ (str ++ rest).length := by
    rw [List.length_append]
    exact Nat.le_add_right _ _
  rw [loadQstr]
  simp only [readUint_mpPrintUint fits fitsOther, Option.bind_eq_bind, Option.bind_some]
  simp only [isEven, if_neg some_, if_neg even, half, succeeds, if_true, if_pos inside,
    List.take_left, List.drop_left, interned]
  rfl

section

variable (sides : Sides wconfig rconfig writer wstrings) (ready : Ready rconfig pools rstrings)
  (inStep : InStep wstrings rstrings qw rqw) (statics : SharedStatics wstrings rstrings)
  {name : Option (List UInt8)} (named : (names wstrings)[qst]? = some name) (small : qst < 2 ^ 16)
  (room : (internName rstrings name).length < 2 ^ 16)

include sides ready inStep statics name named small room

/-- A qstr that is not in the window is written as its string. -/
theorem new_loadsBack (dynamic : ¬ qst ≤ qstrLastStatic) (absent : findSlot qw qst = none)
    (succeed : allocations.Succeed) :
    LoadsBack wconfig rconfig writer pools wstrings rstrings qw rqw qst name allocations := by
  have distinct := names_nodup sides.written.distinct
  have isLarge : 165 < qst := not_le.mp dynamic
  -- Only `MP_QSTR_NULL` has no string, and only a static qstr is the empty one.
  cases name with
  | none =>
    have first : (names wstrings)[0]? = some none := rfl
    obtain ⟨inside, isHere⟩ := List.getElem?_eq_some_iff.mp named
    obtain ⟨begins, isFirst⟩ := List.getElem?_eq_some_iff.mp first
    have same := (List.Nodup.getElem_inj_iff distinct).mp (isHere.trans isFirst.symm)
    omega
  | some str =>
    have nonempty : str ≠ [] := by
      intro isEmpty
      rw [isEmpty] at named
      obtain ⟨inside, isHere⟩ := List.getElem?_eq_some_iff.mp named
      obtain ⟨begins, isFirst⟩ := List.getElem?_eq_some_iff.mp statics.empty
      have same := (List.Nodup.getElem_inj_iff distinct).mp (isHere.trans isFirst.symm)
      omega
    have isIn : str ∈ wstrings := by
      have member := List.mem_of_getElem? named
      simpa [names] using member
    have long : 0 < str.length := List.length_pos_iff.mpr nonempty
    have short := sides.fits str isIn
    have isData : writer.qstrData wconfig qst = some str :=
      sides.written.qstrData_eq sides.supported named
    have inserted : qstrWindowInsert qw qst = (32, qstrWindowPush qw qst) := by
      simp only [qstrWindowInsert, absent]
    have collected : Ready rconfig (pools.collecting none allocations.str) rstrings := by
      obtain ⟨samePools, -, sameLast, -⟩ := @collecting_same pools none allocations.str
      refine ⟨ready.1.collecting none allocations.str ?_, ?_⟩
      · intro id isLast
        exact .inl (ready.2 id isLast)
      · intro id isLast
        rw [samePools]
        exact ready.2 id (sameLast ▸ isLast)
    obtain ⟨after, q, interned, isReady, isNamed⟩ :=
      qstrFromStrn_interns sides.rsupported collected short succeed.chunk succeed.pool
    refine ⟨mpPrintUint wconfig.wordBits (str.length <<< 1) ++ str, qstrWindowPush qw qst, q,
      after, qstrWindowPush rqw q, ?_, ?_, isReady, ?_, isNamed⟩
    · rw [saveQstr, if_neg dynamic, inserted]
      simp only [isData]
      rfl
    · intro rest
      rw [List.append_assoc]
      exact loadQstr_string long
        (shifted_length_lt sides.narrow (sides.written.short str isIn))
        (shifted_length_lt sides.rnarrow short) succeed.str interned
    · have smallLoaded : q < 2 ^ 16 := by
        have bound := (List.getElem?_eq_some_iff.mp isNamed).1
        rw [names, List.length_cons, List.length_map] at bound
        omega
      exact inStep.push (prefix_internName _ _) small smallLoaded
        fun _ => ⟨some str, named, isNamed⟩

theorem qstr_loadsBack (succeed : allocations.Succeed) :
    LoadsBack wconfig rconfig writer pools wstrings rstrings qw rqw qst name allocations := by
  by_cases static : qst ≤ qstrLastStatic
  · exact static_loadsBack ready inStep statics named static
  · cases found : findSlot qw qst with
    | some idx => exact windowed_loadsBack sides ready inStep named static found
    | none => exact new_loadsBack sides ready inStep statics named small room static found succeed

end

end One

/-! ## Every sequence -/

/-- The strings of a pool after names are interned. -/
def internNames (strings : List (List UInt8)) (loaded : List (Option (List UInt8))) :
    List (List UInt8) := loaded.foldl internName strings

theorem prefix_internNames (strings : List (List UInt8)) (loaded : List (Option (List UInt8))) :
    strings <+: internNames strings loaded := by
  induction loaded generalizing strings with
  | nil => exact List.prefix_rfl
  | cons name loaded ih =>
    exact (prefix_internName strings name).trans (ih _)

theorem SharedStatics.mono {wstrings rstrings more : List (List UInt8)}
    (statics : SharedStatics wstrings rstrings) (grown : rstrings <+: more) :
    SharedStatics wstrings more := by
  refine ⟨?_, statics.listed, statics.empty⟩
  intro q isStatic
  have inside : q < (names wstrings).length := isStatic.trans_lt statics.listed
  have named := List.getElem?_eq_getElem inside
  rw [named]
  exact (names_extend grown ((statics.same q isStatic).symm.trans named)).symm

/-- A sequence of qstrs, from windows that are in step on. -/
theorem loadQstrs_saveQstrs {wconfig rconfig : QstrConfig} {writer pools : QstrState}
    {wstrings rstrings : List (List UInt8)} {qw rqw : QstrWindow} {qsts : List Nat}
    {allocations : List LoadAllocations} (sides : Sides wconfig rconfig writer wstrings)
    (ready : Ready rconfig pools rstrings) (inStep : InStep wstrings rstrings qw rqw)
    (statics : SharedStatics wstrings rstrings) {saved : List (Option (List UInt8))}
    (named : List.Forall₂ (fun qst name => (names wstrings)[qst]? = some name) qsts saved)
    (small : ∀ qst ∈ qsts, qst < 2 ^ 16) (room : (internNames rstrings saved).length < 2 ^ 16)
    (count : allocations.length = qsts.length)
    (succeed : ∀ allocation ∈ allocations, allocation.Succeed) :
    ∃ bytes next loaded after rnext, saveQstrs wconfig writer qw qsts = some (bytes, next) ∧
      (∀ rest, loadQstrs rconfig ⟨pools, rqw, bytes ++ rest⟩ allocations =
        some (.ok (loaded, ⟨after, rnext, rest⟩))) ∧
      Ready rconfig after (internNames rstrings saved) ∧
      InStep wstrings (internNames rstrings saved) next rnext ∧
      List.Forall₂ (fun qst name => (names (internNames rstrings saved))[qst]? = some name)
        loaded saved := by
  induction named generalizing qw rqw pools rstrings allocations with
  | nil =>
    cases allocations with
    | nil => exact ⟨[], qw, [], pools, rqw, rfl, fun _ => rfl, ready, inStep, .nil⟩
    | cons first more => cases count
  | @cons qst name qsts saved isNamed namedRest ih =>
    cases allocations with
    | nil => cases count
    | cons first more =>
      have grown := prefix_internNames (internName rstrings name) saved
      obtain ⟨bytes, middle, qstLoaded, after, rmiddle, isSaved, loads, isReady, stillInStep,
        isLoaded⟩ := qstr_loadsBack sides ready inStep statics isNamed (small qst (by simp))
          (grown.length_le.trans_lt room) (succeed first (by simp))
      obtain ⟨bytesRest, next, loaded, last, rnext, isSavedRest, loadsRest, isReadyLast,
        inStepLast, loadedNames⟩ :=
        @ih after (internName rstrings name) middle rmiddle more
          isReady stillInStep (statics.mono (prefix_internName _ _))
          (fun q isIn => small q (List.mem_cons_of_mem qst isIn)) room (by simpa using count)
          (fun allocation isIn => succeed allocation (List.mem_cons_of_mem first isIn))
      refine ⟨bytes ++ bytesRest, next, qstLoaded :: loaded, last, rnext, ?_, ?_, isReadyLast,
        inStepLast, .cons (names_extend grown isLoaded) loadedNames⟩
      · rw [saveQstrs]
        simp only [isSaved, isSavedRest, Option.bind_eq_bind, Option.bind_some]
      · intro rest
        rw [loadQstrs, List.append_assoc]
        simp only [loads, loadsRest, Option.bind_eq_bind, Option.bind_some]

/-- The windows at the start of a file. -/
def startWindow (window : Vector Nat 32) : QstrWindow := ⟨0, window⟩

/-- Every sequence of qstrs that is saved at the start of a file is loaded as the same sequence of
strings, and the reader's window then holds the strings of all slots that the writer has filled,
whatever was in it before. The qstrs of both sides fit into the slots. -/
theorem qstrWindows_inStep {wconfig rconfig : QstrConfig} {writer reader : QstrState}
    {wstrings rstrings : List (List UInt8)} {qsts : List Nat} {allocations : List LoadAllocations}
    (sides : Sides wconfig rconfig writer wstrings) (ready : Ready rconfig reader rstrings)
    (statics : SharedStatics wstrings rstrings) {saved : List (Option (List UInt8))}
    (named : List.Forall₂ (fun qst name => (names wstrings)[qst]? = some name) qsts saved)
    (small : ∀ qst ∈ qsts, qst < 2 ^ 16) (room : (internNames rstrings saved).length < 2 ^ 16)
    (count : allocations.length = qsts.length)
    (succeed : ∀ allocation ∈ allocations, allocation.Succeed) (uninitialised : Vector Nat 32) :
    ∃ bytes next loaded after rnext,
      saveQstrs wconfig writer (startWindow (Vector.replicate 32 0)) qsts = some (bytes, next) ∧
      (∀ rest, loadQstrs rconfig ⟨reader, startWindow uninitialised, bytes ++ rest⟩ allocations =
        some (.ok (loaded, ⟨after, rnext, rest⟩))) ∧
      Ready rconfig after (internNames rstrings saved) ∧
      InStep wstrings (internNames rstrings saved) next rnext ∧
      List.Forall₂ (fun qst name => (names (internNames rstrings saved))[qst]? = some name)
        loaded saved :=
  loadQstrs_saveQstrs sides ready (inStep_start uninitialised) statics named small room count
    succeed

/-! ## Builds with many strings -/

/-- The string of a qstr of the builds below. -/
def numberString (n : Nat) : List UInt8 := if n = 0 then [] else lowBytes 3 n

/-- A build with this many strings. -/
def numberConsts (count : Nat) : ConstPools := ⟨(List.range count).map numberString, none⟩

/-- Its pools. -/
def numberPools (count : Nat) : QstrState :=
  (Interner.qstrInit defaultConfig (numberConsts count)).memory

section Numbers

variable {count n : Nat}

theorem strings_numberConsts (count : Nat) :
    (numberConsts count).strings = (List.range count).map numberString := List.append_nil _

theorem numberString_injective {m : Nat} (mSmall : m < 256 ^ 3) (nSmall : n < 256 ^ 3)
    (same : numberString m = numberString n) : m = n := by
  have value (k : Nat) (small : k < 256 ^ 3) : fromBytes (numberString k) = k := by
    rw [numberString]
    split_ifs with isZero
    · rw [isZero]
      rfl
    · rw [fromBytes_lowBytes, Nat.mod_eq_of_lt small]
  rw [← value m mSmall, same, value n nSmall]

theorem length_numberString (n : Nat) : (numberString n).length < 2 ^ 8 := by
  rw [numberString]
  split_ifs
  · decide
  · rw [lowBytes_length]
    decide

theorem numberConsts_wellBuilt (some_ : 9 ≤ count) (atMost : count ≤ 256 ^ 3) :
    (numberConsts count).WellBuilt defaultConfig := by
  refine ⟨?_, ?_, ?_, rfl⟩
  · rw [strings_numberConsts]
    apply List.Nodup.map_on _ List.nodup_range
    intro m mInside n nInside same
    exact numberString_injective ((List.mem_range.mp mInside).trans_le atMost)
      ((List.mem_range.mp nInside).trans_le atMost) same
  · rw [strings_numberConsts]
    intro str isIn
    obtain ⟨n, -, rfl⟩ := List.mem_map.mp isIn
    exact length_numberString n
  · simp only [numberConsts, List.length_map, List.length_range, allocQstrEntriesInit]
    omega

theorem numberPools_ready (some_ : 9 ≤ count) (atMost : count ≤ 256 ^ 3) :
    Ready defaultConfig (numberPools count) ((List.range count).map numberString) := by
  have holds := (qstrInit_invariant (numberConsts_wellBuilt some_ atMost)).ready
  rw [interned_qstrInit, strings_numberConsts] at holds
  exact holds

theorem names_numberString (inside : n < count) :
    (names ((List.range count).map numberString))[n + 1]? = some (some (numberString n)) := by
  rw [names, List.getElem?_cons_succ, List.getElem?_map, List.getElem?_map,
    List.getElem?_range inside]
  rfl

theorem numberSides {wcount : Nat} (some_ : 9 ≤ wcount) (atMost : wcount ≤ 256 ^ 3) :
    Sides defaultConfig defaultConfig (numberPools wcount)
      ((List.range wcount).map numberString) := by
  refine ⟨⟨.inr rfl, .inl rfl⟩, ⟨.inr rfl, .inl rfl⟩, by decide, by decide,
    (numberPools_ready some_ atMost).1, ?_⟩
  intro str isIn
  obtain ⟨n, -, rfl⟩ := List.mem_map.mp isIn
  exact length_numberString n

/-- All allocations of a load succeed. -/
def plentifulLoad : LoadAllocations := ⟨⟨none, true⟩, plentiful true⟩

theorem plentifulLoad_succeed : plentifulLoad.Succeed := ⟨rfl, rfl, rfl⟩

end Numbers

/-- A static qstr, a new one, another new one, and the first of these again. -/
theorem qstrWindows_inStep_four :
    ∃ bytes next loaded after rnext,
      saveQstrs defaultConfig (numberPools 200) (startWindow (Vector.replicate 32 0))
        [3, 180, 190, 180] = some (bytes, next) ∧
      (∀ rest, loadQstrs defaultConfig
        ⟨numberPools 170, startWindow (Vector.replicate 32 7), bytes ++ rest⟩
          (List.replicate 4 plentifulLoad) = some (.ok (loaded, ⟨after, rnext, rest⟩))) ∧
      Ready defaultConfig after (internNames ((List.range 170).map numberString)
        ([2, 179, 189, 179].map fun n => some (numberString n))) ∧
      InStep ((List.range 200).map numberString) (internNames ((List.range 170).map numberString)
        ([2, 179, 189, 179].map fun n => some (numberString n))) next rnext ∧
      List.Forall₂ (fun qst name => (names (internNames ((List.range 170).map numberString)
        ([2, 179, 189, 179].map fun n => some (numberString n))))[qst]? = some name)
        loaded ([2, 179, 189, 179].map fun n => some (numberString n)) := by
  refine qstrWindows_inStep (numberSides (by decide) (by decide))
    (numberPools_ready (by decide) (by decide)) ⟨?_, ?_, ?_⟩ ?_ ?_ ?_ ?_ ?_ _
  · intro q isStatic
    cases q with
    | zero => rfl
    | succ n =>
      have inside : n < 165 := isStatic
      rw [names_numberString (by omega), names_numberString (by omega)]
  · simp only [names, List.length_cons, List.length_map, List.length_range, qstrLastStatic]
    decide
  · exact names_numberString (by decide)
  · exact .cons (names_numberString (by decide)) (.cons (names_numberString (by decide))
      (.cons (names_numberString (by decide)) (.cons (names_numberString (by decide)) .nil)))
  · decide
  · decide +kernel
  · rfl
  · intro allocation isIn
    rw [List.eq_of_mem_replicate isIn]
    exact plentifulLoad_succeed

/-- Two qstrs that are the same in 16 bits: the second is taken to be in the window, and the reader
loads the string of the first for both. -/
theorem qstrWindows_mixed_up :
    ∃ bytes next loaded after,
      saveQstrs defaultConfig (numberPools 65836) (startWindow (Vector.replicate 32 0))
        [65836, 300] = some (bytes, next) ∧
      loadQstrs defaultConfig ⟨numberPools 165, startWindow (Vector.replicate 32 0), bytes⟩
        (List.replicate 2 plentifulLoad) = some (.ok (loaded, after)) ∧
      loaded.map (after.pools.qstrData defaultConfig) =
        [some (numberString 65835), some (numberString 65835)] ∧
      [65836, 300].map ((numberPools 65836).qstrData defaultConfig) =
        [some (numberString 65835), some (numberString 299)] ∧
      numberString 65835 ≠ numberString 299 := by
  have supported : defaultConfig.Supported := ⟨.inr rfl, .inl rfl⟩
  have wready := @numberPools_ready 65836 (by decide) (by decide)
  have rready := @numberPools_ready 165 (by decide) (by decide)
  have isData (n : Nat) (inside : n < 65836) :
      (numberPools 65836).qstrData defaultConfig (n + 1) = some (numberString n) :=
    wready.1.qstrData_eq supported (names_numberString inside)
  obtain ⟨after, q, interned, isReady, isNamed⟩ :=
    @qstrFromStrn_interns defaultConfig (numberPools 165) _ supported rready (numberString 65835)
      (length_numberString _) (plentiful true) rfl rfl
  have small : q < 2 ^ 16 := by
    have bound := (List.getElem?_eq_some_iff.mp isNamed).1
    rw [names, List.length_cons, List.length_map, internName] at bound
    split_ifs at bound
    · rw [List.length_map, List.length_range] at bound
      omega
    · rw [List.length_append, List.length_map, List.length_range, List.length_singleton] at bound
      omega
  -- The first qstr is not in the window; in the slot that it gets it is `300`.
  have absent : findSlot (startWindow (Vector.replicate 32 0)) 65836 = none := by decide
  have found : findSlot (qstrWindowPush (startWindow (Vector.replicate 32 0)) 65836) 300 =
      some 1 := by decide
  have first : saveQstr defaultConfig (numberPools 65836) (startWindow (Vector.replicate 32 0))
      65836 = some ([6, 43, 1, 1], qstrWindowPush (startWindow (Vector.replicate 32 0)) 65836) := by
    rw [saveQstr, if_neg (by decide)]
    simp only [qstrWindowInsert, absent, isData 65835 (by decide)]
    rfl
  have second : saveQstr defaultConfig (numberPools 65836)
      (qstrWindowPush (startWindow (Vector.replicate 32 0)) 65836) 300 =
        some ([1],
          qstrWindowPull (qstrWindowPush (startWindow (Vector.replicate 32 0)) 65836) 1) := by
    rw [saveQstr, if_neg (by decide)]
    simp only [qstrWindowInsert, found]
    rfl
  have loadsFirst : loadQstr defaultConfig
      ⟨numberPools 165, startWindow (Vector.replicate 32 0), [6, 43, 1, 1, 1]⟩ plentifulLoad =
        some (.ok (q, ⟨after, qstrWindowPush (startWindow (Vector.replicate 32 0)) q, [1]⟩)) := by
    have isString : numberString 65835 = [43, 1, 1] := by decide
    have isBytes : ([6, 43, 1, 1, 1] : List UInt8) =
        mpPrintUint 32 (([43, 1, 1] : List UInt8).length <<< 1) ++ ([43, 1, 1] ++ [1]) := by
      decide
    rw [isString] at interned
    rw [isBytes]
    exact loadQstr_string (by decide) (by decide) (by decide) rfl interned
  have loadsSecond : loadQstr defaultConfig
      ⟨after, qstrWindowPush (startWindow (Vector.replicate 32 0)) q, [1]⟩ plentifulLoad =
        some (.ok (q, ⟨after,
          qstrWindowPull (qstrWindowPush (startWindow (Vector.replicate 32 0)) q) 1, []⟩)) := by
    have read : readUint defaultConfig.wordBits [1] 0 = some (1, []) := by decide
    have accessed : qstrWindowAccess (qstrWindowPush (startWindow (Vector.replicate 32 0)) q)
        (1 >>> 1) =
          (q, qstrWindowPull (qstrWindowPush (startWindow (Vector.replicate 32 0)) q) 1) := by
      have isSlot : slotAt (0 + 1) (1 >>> 1) = 1 := by decide
      simp only [qstrWindowAccess, qstrWindowPush, startWindow, isSlot, Nat.mod_eq_of_lt small]
      rfl
    rw [loadQstr]
    simp only [read, Option.bind_eq_bind, Option.bind_some, accessed, one_ne_zero, if_false,
      Nat.one_mod, if_true]
  have isLoaded : after.qstrData defaultConfig q = some (numberString 65835) :=
    isReady.1.qstrData_eq supported isNamed
  refine ⟨[6, 43, 1, 1, 1],
    qstrWindowPull (qstrWindowPush (startWindow (Vector.replicate 32 0)) 65836) 1, [q, q],
    ⟨after, qstrWindowPull (qstrWindowPush (startWindow (Vector.replicate 32 0)) q) 1, []⟩,
    ?_, ?_, ?_, ?_, by decide⟩
  · simp only [saveQstrs, first, second, Option.bind_eq_bind, Option.bind_some]
    rfl
  · simp only [List.replicate, loadQstrs, loadsFirst, loadsSecond, Option.bind_eq_bind,
      Option.bind_some]
  · simp only [List.map_cons, List.map_nil, isLoaded]
  · simp only [List.map_cons, List.map_nil, isData 65835 (by decide), isData 299 (by decide)]

end MultiPython.Vm
