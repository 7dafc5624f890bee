import MultiPython.Logic.Buffer

/-!
# Sequences times integers

`str`, `bytes`, `list` and `tuple` compute the size of the result in machine words, ask for that
many bytes and have `mp_seq_multiply` fill them. A request may be refused, and a write outside of
what was granted is a fault.
-/

namespace MultiPython.Obj

open Logic List

/-- The words and objects of a port. -/
structure SeqConfig where
  wordBits : Nat
  objSize : Nat
  strObjSize : Nat
  listObjSize : Nat
  tupleObjSize : Nat
  atLeast : 2 ≤ wordBits
  objSizePositive : 0 < objSize
  smallestList : objSize * 4 < 2 ^ wordBits
  tupleFits : tupleObjSize < 2 ^ wordBits

/-- The types that can be multiplied. -/
inductive SeqKind where
  | str
  | bytes
  | list
  | tuple
deriving DecidableEq

/-- How a multiplication ends: with the `len` of the object and the memory of its items. -/
inductive SeqProduct where
  | returns (len : Nat) (items : List Nat)
  | memoryError
  | fault

variable (config : SeqConfig)

/-- `sizeof(*items)`. -/
def SeqKind.itemSize : SeqKind → Nat
  | .str | .bytes => 1
  | .list | .tuple => config.objSize

/-- A sequence whose items are in memory. -/
structure MpSeq (kind : SeqKind) (α : Type) where
  items : List α
  /-- What an item looks like in memory. -/
  stored : α → List Nat
  sized : ∀ item, (stored item).length = kind.itemSize config
  inMemory : kind.itemSize config * items.length < 2 ^ config.wordBits

/-- The memory of a sequence. -/
def MpSeq.data {config : SeqConfig} {kind : SeqKind} {α : Type} (s : MpSeq config kind α) :
    List Nat :=
  s.items.flatMap s.stored

/-- `memcpy` and `memset` into a block. -/
def writeBlock (block : List Nat) (position : Nat) (bytes : List Nat) : Option (List Nat) :=
  if bytes = [] then some block else storeAt block position bytes

/-- `mp_seq_multiply`, with the memory of the items; `dest` is a position of the block. -/
def mpSeqMultiply (items : List Nat) : Nat → Nat → List Nat → Option (List Nat)
  | 0, _, block => some block
  | times + 1, dest, block =>
    (writeBlock block dest items).bind fun block =>
      mpSeqMultiply items times (dest + items.length) block

/-- What a granted request of some bytes holds. -/
def newBlock (before : Nat → Nat) (size : Nat) : List Nat := (List.range size).map before

section Multiply

variable {config} {kind : SeqKind} {α : Type}
variable (granted : Nat → Nat → Bool) (before : Nat → Nat) (s : MpSeq config kind α) (n : Int)

/-- `vstr_init_len`: the bytes that are requested. -/
def vstrAlloc (config : SeqConfig) (len : Nat) : Nat := max 1 ((len + 1) % 2 ^ config.wordBits)

/-- The multiplication of `mp_obj_str_binary_op`; `granted` answers the requests in their order. -/
def strMultiply : SeqProduct :=
  if n ≤ 0 then .returns 0 [0]
  else
    let len := s.items.length * n.toNat % 2 ^ config.wordBits
    if granted 0 (vstrAlloc config len) then
      match mpSeqMultiply s.data n.toNat 0 (newBlock before (vstrAlloc config len)) with
      | none => .fault
      | some buf =>
        if granted 1 config.strObjSize then
          match storeAt buf len [0] with
          | none => .fault
          | some data => .returns len data
        else .memoryError
    else .memoryError

/-- `alloc` of a new list. -/
def listAlloc (len : Nat) : Nat := max len 4

/-- The multiplication of `list_binary_op`, with `list_new`. -/
def listMultiply : SeqProduct :=
  let len := s.items.length * n.toNat % 2 ^ config.wordBits
  let size := config.objSize * listAlloc len % 2 ^ config.wordBits
  if granted 0 config.listObjSize && granted 1 size then
    let cleared := List.replicate (config.objSize * (listAlloc len - len)) 0
    match writeBlock (newBlock before size) (config.objSize * len) cleared with
    | none => .fault
    | some items =>
      match mpSeqMultiply s.data n.toNat 0 items with
      | none => .fault
      | some items => .returns len items
  else .memoryError

/-- The multiplication of `mp_obj_tuple_binary_op`, with `mp_obj_new_tuple`; the empty tuple has no
items to write to, and the head of an object is written first. -/
def tupleMultiply : SeqProduct :=
  if n ≤ 0 then .returns 0 []
  else
    let len := s.items.length * n.toNat % 2 ^ config.wordBits
    let size := (config.tupleObjSize + config.objSize * len) % 2 ^ config.wordBits
    if len = 0 then
      match mpSeqMultiply s.data n.toNat 0 [] with
      | none => .fault
      | some items => .returns 0 items
    else if granted 0 size then
      if size < config.tupleObjSize then .fault
      else
        match mpSeqMultiply s.data n.toNat 0 (newBlock before (size - config.tupleObjSize)) with
        | none => .fault
        | some items => .returns len items
    else .memoryError

end Multiply

/-- The operator `*` of the four types. -/
def seqMultiply {config : SeqConfig} {α : Type} (granted : Nat → Nat → Bool) (before : Nat → Nat) :
    {kind : SeqKind} → MpSeq config kind α → Int → SeqProduct
  | .str, s, n | .bytes, s, n => strMultiply granted before s n
  | .list, s, n => listMultiply granted before s n
  | .tuple, s, n => tupleMultiply granted before s n

/-! ## Copies -/

theorem mpSeqMultiply_succ (items : List Nat) (times dest : Nat) (block : List Nat) :
    mpSeqMultiply items (times + 1) dest block = (writeBlock block dest items).bind fun block =>
      mpSeqMultiply items times (dest + items.length) block := rfl

/-- The bytes of some copies. -/
def copies (items : List Nat) (times : Nat) : List Nat := (List.replicate times items).flatten

theorem length_copies (items : List Nat) (times : Nat) :
    (copies items times).length = times * items.length := by
  rw [copies, length_flatten, map_replicate, sum_replicate, smul_eq_mul]

theorem mpSeqMultiply_fits {items contents block : List Nat} {times : Nat}
    (holds : contents <+: block)
    (fits : contents.length + times * items.length ≤ block.length) :
    ∃ after, mpSeqMultiply items times contents.length block = some after ∧
      contents ++ copies items times <+: after ∧ after.length = block.length := by
  induction times generalizing contents block with
  | zero => exact ⟨block, rfl, by rwa [copies, replicate_zero, flatten_nil, append_nil],
      rfl⟩
  | succ times ih =>
    rw [Nat.succ_mul] at fits
    have next : ∃ written, writeBlock block contents.length items = some written ∧
        contents ++ items <+: written ∧ written.length = block.length := by
      rw [writeBlock]
      split_ifs with nothing
      · exact ⟨block, rfl, by rwa [nothing, append_nil], rfl⟩
      · exact storeAt_contents holds (by omega)
    obtain ⟨written, writes, now, length⟩ := next
    have room : (contents ++ items).length + times * items.length ≤ written.length := by
      rw [length_append, length]
      omega
    obtain ⟨after, rest, all, same⟩ := ih now room
    refine ⟨after, ?_, ?_, same.trans length⟩
    · rw [mpSeqMultiply_succ, writes, Option.bind_some, ← length_append, rest]
    · rwa [copies, replicate_succ, flatten_cons, ← append_assoc]

theorem mpSeqMultiply_overflows {items block : List Nat} {times dest : Nat}
    (overflows : block.length < dest + times * items.length) (begins : dest ≤ block.length) :
    mpSeqMultiply items times dest block = none := by
  induction times generalizing dest block with
  | zero => omega
  | succ times ih =>
    rw [Nat.succ_mul] at overflows
    have some_ : items ≠ [] := by
      rintro rfl
      rw [length_nil] at overflows
      omega
    rw [mpSeqMultiply_succ, writeBlock, if_neg some_]
    cases stores : storeAt block dest items with
    | none => rfl
    | some written =>
      have length := length_of_storeAt stores
      have inside := (storeAt_some stores).1
      exact ih (by omega) (by omega)

theorem mpSeqMultiply_start (items block : List Nat) (times : Nat) :
    (times * items.length ≤ block.length ∧
      ∃ after, mpSeqMultiply items times 0 block = some after ∧
        copies items times <+: after ∧ after.length = block.length) ∨
    (block.length < times * items.length ∧ mpSeqMultiply items times 0 block = none) := by
  rcases Nat.lt_or_ge block.length (times * items.length) with overflows | fits
  · exact Or.inr ⟨overflows, mpSeqMultiply_overflows (by rwa [Nat.zero_add]) (Nat.zero_le _)⟩
  · exact Or.inl ⟨fits, @mpSeqMultiply_fits items [] block times nil_prefix
      (by rwa [length_nil, Nat.zero_add])⟩

@[simp]
theorem length_newBlock (before : Nat → Nat) (size : Nat) : (newBlock before size).length = size := by
  simp [newBlock]

/-! ## Results -/

section Repeats

variable {config} {kind : SeqKind} {α : Type}

/-- Either an exception, or a sequence of the copies in order. -/
def Repeats (s : MpSeq config kind α) (n : Int) : SeqProduct → Prop
  | .returns len items => len = s.items.length * n.toNat ∧
      (List.replicate n.toNat s.items).flatten.flatMap s.stored <+: items
  | .memoryError => True
  | .fault => False

/-- The bytes that a result of some items needs. -/
def SeqKind.requested (config : SeqConfig) (count : Nat) : SeqKind → Nat
  | .str | .bytes => count + 1
  | .list => config.objSize * listAlloc count
  | .tuple => config.tupleObjSize + config.objSize * count

/-- A request that comes before the copies is refused; `len` is the size in a machine word. -/
def SeqKind.refused (config : SeqConfig) (granted : Nat → Nat → Bool) (len : Nat) :
    SeqKind → Bool
  | .str | .bytes => !granted 0 (vstrAlloc config len)
  | .list => !(granted 0 config.listObjSize &&
      granted 1 (config.objSize * listAlloc len % 2 ^ config.wordBits))
  | .tuple => len != 0 &&
      !granted 0 ((config.tupleObjSize + config.objSize * len) % 2 ^ config.wordBits)

variable (granted : Nat → Nat → Bool) (before : Nat → Nat) (s : MpSeq config kind α) (n : Int)

theorem flatMap_copies (stored : α → List Nat) (items : List α) (times : Nat) :
    (List.replicate times items).flatten.flatMap stored = copies (items.flatMap stored) times := by
  induction times with
  | zero => rfl
  | succ times ih =>
    rw [replicate_succ, flatten_cons, flatMap_append, ih, copies,
      copies, replicate_succ, flatten_cons]

theorem length_data : s.data.length = kind.itemSize config * s.items.length := by
  rw [MpSeq.data, length_flatMap, map_congr_left (fun item _ => s.sized item),
    map_const', sum_replicate, smul_eq_mul, Nat.mul_comm]

theorem repeats_none (none_ : n ≤ 0) (items : List Nat) : Repeats s n (.returns 0 items) := by
  have zero : n.toNat = 0 := Int.toNat_of_nonpos none_
  rw [Repeats, zero]
  exact ⟨rfl, nil_prefix⟩

theorem repeats_returns {len : Nat} {items : List Nat} (isLen : len = s.items.length * n.toNat)
    (holds : copies s.data n.toNat <+: items) : Repeats s n (.returns len items) :=
  ⟨isLen, by rwa [flatMap_copies]⟩

end Repeats

theorem str_request {size : Nat} (wide : 4 ≤ size) (product : Nat) :
    product ≤ max 1 ((product % size + 1) % size) ↔ product + 1 < size := by
  constructor
  · intro fits
    have small : product < size := by
      have less := Nat.mod_lt (product % size + 1) (by omega : 0 < size)
      omega
    rw [Nat.mod_eq_of_lt small] at fits
    rcases Nat.lt_or_ge (product + 1) size with inside | full
    · exact inside
    · have same : product + 1 = size := by omega
      rw [same, Nat.mod_self] at fits
      omega
  · intro small
    rw [Nat.mod_eq_of_lt (by omega : product < size), Nat.mod_eq_of_lt small]
    omega

/-- A number of bytes that fits into the bytes that are requested for it was not wrapped. -/
theorem le_mod_iff {size total : Nat} (positive : 0 < size) :
    total ≤ total % size ↔ total < size :=
  ⟨fun fits => fits.trans_lt (Nat.mod_lt total positive), fun small => (Nat.mod_eq_of_lt small).ge⟩

theorem SeqConfig.four_le (config : SeqConfig) : 4 ≤ 2 ^ config.wordBits :=
  Nat.pow_le_pow_right (show 2 > 0 by decide) config.atLeast

section Kinds

variable {config} {α : Type} (granted : Nat → Nat → Bool) (before : Nat → Nat) (n : Int)

/-- `str` and `bytes`. -/
theorem strMultiply_iff {kind : SeqKind} (bytes : kind.itemSize config = 1)
    (s : MpSeq config kind α) :
    Repeats s n (strMultiply granted before s n) ↔
      s.items.length * n.toNat + 1 < 2 ^ config.wordBits ∨
        granted 0 (vstrAlloc config (s.items.length * n.toNat % 2 ^ config.wordBits)) = false := by
  have wide := config.four_le
  have dataLength : n.toNat * s.data.length = s.items.length * n.toNat := by
    rw [length_data, bytes, Nat.one_mul, Nat.mul_comm]
  rw [strMultiply]
  by_cases none_ : n ≤ 0
  · rw [if_pos none_]
    refine iff_of_true (repeats_none s n none_ _) (Or.inl ?_)
    rw [Int.toNat_of_nonpos none_, Nat.mul_zero]
    omega
  rw [if_neg none_, ← str_request wide, ← vstrAlloc]
  simp only
  by_cases isGranted : granted 0 (vstrAlloc config
      (s.items.length * n.toNat % 2 ^ config.wordBits)) = true
  · rw [if_pos isGranted, isGranted, Bool.true_eq_false, or_false]
    rcases mpSeqMultiply_start s.data (newBlock before (vstrAlloc config
        (s.items.length * n.toNat % 2 ^ config.wordBits))) n.toNat with
      ⟨fits, after, writes, holds, length⟩ | ⟨overflows, writes⟩
    · rw [length_newBlock, dataLength] at fits
      rw [writes]
      refine iff_of_true ?_ fits
      have small := (str_request wide _).mp fits
      have isLen : s.items.length * n.toNat % 2 ^ config.wordBits = s.items.length * n.toNat :=
        Nat.mod_eq_of_lt (by omega)
      simp only [isLen]
      by_cases second : granted 1 config.strObjSize = true
      · rw [length_newBlock, isLen, vstrAlloc, Nat.mod_eq_of_lt small] at length
        obtain ⟨data, stores⟩ := @storeAt_isSome _ after [0] (s.items.length * n.toNat)
          (by rw [length_singleton]; omega)
        rw [if_pos second, stores]
        refine repeats_returns s n rfl (storeAt_behind holds ?_ stores)
        rw [length_copies, dataLength]
      · rw [if_neg second]
        trivial
    · rw [length_newBlock, dataLength] at overflows
      rw [writes]
      exact iff_of_false id (Nat.not_le_of_lt overflows)
  · rw [if_neg isGranted]
    exact iff_of_true trivial (Or.inr (Bool.eq_false_of_not_eq_true isGranted))

theorem length_copies_objects {kind : SeqKind} (objects : kind.itemSize config = config.objSize)
    (s : MpSeq config kind α) :
    n.toNat * s.data.length = config.objSize * (s.items.length * n.toNat) := by
  rw [length_data, objects, Nat.mul_left_comm, Nat.mul_comm n.toNat]

theorem objects_overflow {size count : Nat} (less : size < 2 ^ config.wordBits)
    (wraps : 2 ^ config.wordBits ≤ count) : size < config.objSize * count :=
  (less.trans_le wraps).trans_le (Nat.le_mul_of_pos_left _ config.objSizePositive)

theorem writeBlock_inside {block bytes : List Nat} {position : Nat}
    (inside : position + bytes.length ≤ block.length) :
    ∃ after, writeBlock block position bytes = some after ∧ after.length = block.length := by
  rw [writeBlock]
  split_ifs
  · exact ⟨block, rfl, rfl⟩
  · obtain ⟨after, stores⟩ := storeAt_isSome inside
    exact ⟨after, stores, length_of_storeAt stores⟩

theorem length_of_writeBlock {block bytes after : List Nat} {position : Nat}
    (writes : writeBlock block position bytes = some after) : after.length = block.length := by
  rw [writeBlock] at writes
  split_ifs at writes
  · rw [Option.some.inj writes]
  · exact length_of_storeAt writes

/-- `list`. -/
theorem listMultiply_iff (s : MpSeq config .list α) :
    Repeats s n (listMultiply granted before s n) ↔
      config.objSize * listAlloc (s.items.length * n.toNat) < 2 ^ config.wordBits ∨
        (granted 0 config.listObjSize && granted 1 (config.objSize *
          listAlloc (s.items.length * n.toNat % 2 ^ config.wordBits) % 2 ^ config.wordBits)) =
          false := by
  have positive : 0 < 2 ^ config.wordBits := Nat.two_pow_pos _
  have dataLength := length_copies_objects n rfl s
  rw [listMultiply]
  simp only
  generalize isCount : s.items.length * n.toNat = count at *
  cases isGranted : granted 0 config.listObjSize && granted 1 (config.objSize *
      listAlloc (count % 2 ^ config.wordBits) % 2 ^ config.wordBits) with
  | false => exact iff_of_true trivial (Or.inr rfl)
  | true =>
    rw [if_pos rfl, Bool.true_eq_false, or_false]
    by_cases fits : config.objSize * listAlloc count < 2 ^ config.wordBits
    · -- The list is as large as it has to be.
      have isCount_ : count ≤ listAlloc count := Nat.le_max_left _ _
      have small : count < 2 ^ config.wordBits :=
        (isCount_.trans (Nat.le_mul_of_pos_left _ config.objSizePositive)).trans_lt fits
      rw [Nat.mod_eq_of_lt small, Nat.mod_eq_of_lt fits]
      obtain ⟨cleared, clears, length⟩ := @writeBlock_inside
        (newBlock before (config.objSize * listAlloc count))
        (List.replicate (config.objSize * (listAlloc count - count)) 0) (config.objSize * count)
        (by rw [length_newBlock, length_replicate, ← Nat.mul_add, Nat.add_sub_cancel' isCount_])
      rw [length_newBlock] at length
      rw [clears]
      simp only
      rcases mpSeqMultiply_start s.data cleared n.toNat with
        ⟨-, after, writes, holds, -⟩ | ⟨overflows, -⟩
      · rw [writes]
        exact iff_of_true (repeats_returns s n isCount.symm holds) fits
      · rw [dataLength, length] at overflows
        exact absurd (Nat.mul_le_mul_left config.objSize isCount_) (Nat.not_le_of_lt overflows)
    · refine iff_of_false (fun repeats => ?_) fits
      generalize isSize : config.objSize * listAlloc (count % 2 ^ config.wordBits) %
        2 ^ config.wordBits = size at repeats
      cases clears : writeBlock (newBlock before size) (config.objSize *
          (count % 2 ^ config.wordBits)) (List.replicate (config.objSize *
          (listAlloc (count % 2 ^ config.wordBits) - count % 2 ^ config.wordBits)) 0) with
      | none =>
        rw [clears] at repeats
        exact repeats
      | some cleared =>
        rw [clears] at repeats
        simp only at repeats
        have length := length_of_writeBlock clears
        rw [length_newBlock] at length
        rcases mpSeqMultiply_start s.data cleared n.toNat with ⟨inside, -⟩ | ⟨-, writes⟩
        · rw [dataLength, length] at inside
          have less : size < 2 ^ config.wordBits := isSize ▸ Nat.mod_lt _ positive
          rcases Nat.lt_or_ge count (2 ^ config.wordBits) with small | wraps
          · -- Only a list of more than four items does not fit.
            rw [Nat.mod_eq_of_lt small] at isSize
            have more : listAlloc count = count := by
              refine Nat.max_eq_left (Nat.le_of_lt (Nat.lt_of_not_le fun few => fits ?_))
              rw [listAlloc, Nat.max_eq_right few]
              exact config.smallestList
            rw [more] at isSize fits
            rw [← isSize] at inside
            exact fits ((le_mod_iff positive).mp inside)
          · exact absurd inside (Nat.not_le_of_lt (objects_overflow less wraps))
        · rw [writes] at repeats
          exact repeats

/-- `tuple`. -/
theorem tupleMultiply_iff (s : MpSeq config .tuple α) :
    Repeats s n (tupleMultiply granted before s n) ↔
      config.tupleObjSize + config.objSize * (s.items.length * n.toNat) < 2 ^ config.wordBits ∨
        s.items.length * n.toNat % 2 ^ config.wordBits ≠ 0 ∧
          granted 0 ((config.tupleObjSize + config.objSize *
            (s.items.length * n.toNat % 2 ^ config.wordBits)) % 2 ^ config.wordBits) = false := by
  have positive : 0 < 2 ^ config.wordBits := Nat.two_pow_pos _
  have dataLength := length_copies_objects n rfl s
  rw [tupleMultiply]
  by_cases none_ : n ≤ 0
  · rw [if_pos none_]
    refine iff_of_true (repeats_none s n none_ _) (Or.inl ?_)
    rw [Int.toNat_of_nonpos none_, Nat.mul_zero, Nat.mul_zero]
    exact config.tupleFits
  rw [if_neg none_]
  simp only
  generalize isCount : s.items.length * n.toNat = count at *
  have small_of_fits (fits : config.tupleObjSize + config.objSize * count < 2 ^ config.wordBits) :
      count < 2 ^ config.wordBits :=
    ((Nat.le_mul_of_pos_left _ config.objSizePositive).trans (Nat.le_add_left _ _)).trans_lt fits
  by_cases empty : count % 2 ^ config.wordBits = 0
  · rw [if_pos empty, or_iff_left fun refused => refused.1 empty]
    rcases mpSeqMultiply_start s.data [] n.toNat with
      ⟨inside, after, writes, holds, -⟩ | ⟨overflows, writes⟩
    · rw [dataLength, length_nil, Nat.le_zero, Nat.mul_eq_zero] at inside
      have zero := inside.resolve_left config.objSizePositive.ne'
      rw [writes]
      refine iff_of_true (repeats_returns s n (zero.symm.trans isCount.symm) holds) ?_
      rw [zero, Nat.mul_zero]
      exact config.tupleFits
    · rw [writes]
      refine iff_of_false id fun fits => ?_
      rw [Nat.mod_eq_of_lt (small_of_fits fits)] at empty
      rw [dataLength, empty, Nat.mul_zero, length_nil] at overflows
      exact Nat.lt_irrefl 0 overflows
  · rw [if_neg empty, and_iff_right empty]
    generalize isSize : (config.tupleObjSize + config.objSize * (count % 2 ^ config.wordBits)) %
      2 ^ config.wordBits = size
    have less : size < 2 ^ config.wordBits := isSize ▸ Nat.mod_lt _ positive
    have whole (fits : config.tupleObjSize + config.objSize * count < 2 ^ config.wordBits) :
        size = config.tupleObjSize + config.objSize * count := by
      rw [← isSize, Nat.mod_eq_of_lt (small_of_fits fits), Nat.mod_eq_of_lt fits]
    cases isGranted : granted 0 size with
    | false => exact iff_of_true trivial (Or.inr rfl)
    | true =>
      rw [if_pos rfl, Bool.true_eq_false, or_false]
      by_cases short : size < config.tupleObjSize
      · rw [if_pos short]
        exact iff_of_false id fun fits => by
          rw [whole fits] at short
          exact Nat.not_lt_of_le (Nat.le_add_right _ _) short
      rw [if_neg short]
      rcases mpSeqMultiply_start s.data (newBlock before (size - config.tupleObjSize)) n.toNat with
        ⟨inside, after, writes, holds, -⟩ | ⟨overflows, writes⟩
      · rw [dataLength, length_newBlock] at inside
        rw [writes]
        have small : count < 2 ^ config.wordBits := by
          by_contra wraps
          have overflow := objects_overflow less (Nat.le_of_not_lt wraps)
          omega
        rw [Nat.mod_eq_of_lt small] at isSize ⊢
        refine iff_of_true (repeats_returns s n isCount.symm holds)
          ((le_mod_iff positive).mp ?_)
        rw [isSize]
        omega
      · rw [dataLength, length_newBlock] at overflows
        rw [writes]
        exact iff_of_false id fun fits => by
          rw [whole fits, Nat.add_sub_cancel_left] at overflows
          exact Nat.lt_irrefl _ overflows

end Kinds

/-- A multiplication raises or returns the copies, and writes only to what was granted, exactly when
the bytes of the result fit a machine word or a request before the copies is refused. -/
theorem seqMultiply_iff {kind : SeqKind} {α : Type} (granted : Nat → Nat → Bool)
    (before : Nat → Nat) (s : MpSeq config kind α) (n : Int) :
    Repeats s n (seqMultiply granted before s n) ↔
      kind.requested config (s.items.length * n.toNat) < 2 ^ config.wordBits ∨
        kind.refused config granted (s.items.length * n.toNat % 2 ^ config.wordBits) = true := by
  cases kind with
  | str =>
    rw [SeqKind.refused, Bool.not_eq_true']
    exact strMultiply_iff granted before n rfl s
  | bytes =>
    rw [SeqKind.refused, Bool.not_eq_true']
    exact strMultiply_iff granted before n rfl s
  | list =>
    rw [SeqKind.refused, Bool.not_eq_true']
    exact listMultiply_iff granted before n s
  | tuple =>
    rw [SeqKind.refused, Bool.and_eq_true, bne_iff_ne, Bool.not_eq_true']
    exact tupleMultiply_iff granted before n s

/-- A port with words of 32 bits. -/
def seqConfig32 : SeqConfig where
  wordBits := 32
  objSize := 4
  strObjSize := 16
  listObjSize := 16
  tupleObjSize := 8
  atLeast := by decide
  objSizePositive := by decide
  smallestList := by decide
  tupleFits := by decide

/-- A string of `2 ^ 16` bytes. -/
def str65536 : MpSeq seqConfig32 .str Nat where
  items := List.replicate 65536 97
  stored := fun byte => [byte]
  sized := fun _ => rfl
  inMemory := by
    rw [List.length_replicate]
    decide

/-- `2 ^ 16` copies of `2 ^ 16` bytes are written to a block of one byte. -/
theorem seqMultiply_overflows :
    ¬Repeats str65536 65536 (seqMultiply (fun _ _ => true) (fun _ => 0) str65536 65536) := by
  refine (strMultiply_iff (fun _ _ => true) (fun _ => 0) 65536 rfl str65536).not.mpr ?_
  rw [str65536, length_replicate]
  decide

end MultiPython.Obj
