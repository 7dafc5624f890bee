import MultiPython.Struct.Binary

/-!
# Packed structures

`py/modstruct.c` for the integer codes and `s`. Three loops go over the codes of a format, one to
add up the sizes, one to unpack and one to pack; they read a count and a code in the same way, and they
differ in when they stop and in how they align. The accesses to the buffer are part of the results.
-/

namespace MultiPython.Struct

open Logic Mpz

variable (platform : Platform)

/-! ## Formats -/

def getFmtType (fmt : List Char) : Char × List Char :=
  match fmt with
  | '!' :: fmt => ('>', fmt)
  | '@' :: fmt => ('@', fmt)
  | '=' :: fmt => ('=', fmt)
  | '<' :: fmt => ('<', fmt)
  | '>' :: fmt => ('>', fmt)
  | fmt => ('@', fmt)

/-- The counts and the codes of a format, as each of the loops reads them: a count is read by
`get_fmt_num`, and a count at the end has no code. A count that is no small int is not modelled,
since it would be made from the address of an object. -/
def fmtItems : Option Nat → List Char → Option (List (Nat × Char))
  | none, [] => some []
  | some _, [] => none
  | num, char :: fmt =>
    if char.isDigit then fmtItems (some (num.getD 0 * 10 + (char.toNat - '0'.toNat))) fmt
    else do
      guard (num.getD 1 < 2 ^ (platform.smallBits - 1))
      let items ← fmtItems none fmt
      some ((num.getD 1, char) :: items)

/-- The loop of `calc_size_items`: the number of items and their size. -/
def calcSizeItems (structType : Char) : List (Nat × Char) → Nat → Nat → Option (Nat × Nat)
  | [], totalCnt, size => some (totalCnt, size)
  | (cnt, code) :: items, totalCnt, size =>
    if code = 's' then
      calcSizeItems structType items (totalCnt + 1) ((size + cnt) % platform.wordBase)
    else do
      let field ← mpBinaryGetSize platform structType code
      calcSizeItems structType items (totalCnt + cnt)
        ((fun size => (alignUp size field.align + field.size) % platform.wordBase)^[cnt] size)

/-- `struct_calcsize`, whose result is a small int without a check. -/
def structCalcsize (fmt : List Char) : Option Int := do
  let (structType, fmt) := getFmtType fmt
  let items ← fmtItems platform none fmt
  let (_, size) ← calcSizeItems platform structType items 0 0
  some ((size : Int).bmod (2 ^ platform.smallBits))

/-- The offset from the start of the buffer. -/
def bufferOffset (len : Nat) (offset : Int) : Option Nat :=
  if offset < 0 then
    if len + offset < 0 then none else some (len + offset).toNat
  else some offset.toNat

/-! ## Unpacking -/

/-- An item of the tuple that is unpacked. -/
inductive Item where
  | int (value : Int)
  | bytes (data : List Nat)
deriving DecidableEq

/-- The inner loop of `struct_unpack_from`: the items, the reads and the pointer after them. -/
def unpackRepeat (memory : Memory) (structType code : Char) :
    Nat → Nat → Option (List Item × List (Nat × Nat) × Nat)
  | 0, ptr => some ([], [], ptr)
  | cnt + 1, ptr => do
      let (val, p, size) ← mpBinaryGetVal platform memory structType code ptr
      let (items, reads, ptr) ← unpackRepeat memory structType code cnt (p + size)
      some (.int val :: items, (p, size) :: reads, ptr)

/-- The loop of `struct_unpack_from`. -/
def unpackItems (memory : Memory) (structType : Char) (numItems : Nat) :
    List (Nat × Char) → Nat → Nat → Option (List Item × List (Nat × Nat))
  | [], i, _ => if numItems ≤ i then some ([], []) else none
  | (cnt, code) :: fmt, i, ptr =>
    if numItems ≤ i then some ([], [])
    else if code = 's' then do
      let (items, reads) ← unpackItems memory structType numItems fmt (i + 1) (ptr + cnt)
      some (.bytes (readBytes memory ptr cnt) :: items, (ptr, cnt) :: reads)
    else do
      let (first, firstReads, ptr) ← unpackRepeat platform memory structType code cnt ptr
      let (items, reads) ← unpackItems memory structType numItems fmt (i + cnt) ptr
      some (first ++ items, firstReads ++ reads)

/-- `struct_unpack_from`, with the reads. -/
def structUnpackFrom (memory : Memory) (fmt : List Char) (buf len : Nat) (offset : Int) :
    Option (List Item × List (Nat × Nat)) := do
  let (structType, fmt) := getFmtType fmt
  let items ← fmtItems platform none fmt
  let (numItems, totalSz) ← calcSizeItems platform structType items 0 0
  let offset ← bufferOffset len offset
  guard (buf + offset + totalSz ≤ buf + len)
  unpackItems platform memory structType numItems items 0 (buf + offset)

/-! ## Packing -/

/-- The inner loop of `struct_pack_into_internal`: the memory, the pointer and the arguments after
it, and the writes. -/
def packRepeat (structType code : Char) :
    Nat → Memory → Nat → List Arg → Option (Memory × Nat × List Arg × List (Nat × Nat))
  | 0, memory, ptr, args => some (memory, ptr, args, [])
  | _ + 1, memory, ptr, [] => some (memory, ptr, [], [])
  | cnt + 1, memory, ptr, arg :: args => do
      let (memory, p, size) ← mpBinarySetVal platform memory structType code arg ptr
      let (memory, ptr, args, writes) ← packRepeat structType code cnt memory (p + size) args
      some (memory, ptr, args, (p, size) :: writes)

/-- `struct_pack_into_internal`, with the writes. -/
def packItems (structType : Char) :
    List (Nat × Char) → Memory → Nat → List Arg → Option (Memory × List (Nat × Nat))
  | _, memory, _, [] => some (memory, [])
  | [], memory, _, _ :: _ => some (memory, [])
  | (cnt, code) :: fmt, memory, ptr, arg :: args =>
    if code = 's' then
      match arg with
      | .bytes data => do
          let toCopy := min data.length cnt
          let written := writeBytes memory ptr (data.take toCopy ++ List.replicate (cnt - toCopy) 0)
          let (memory, writes) ← packItems structType fmt written (ptr + cnt) args
          some (memory, (ptr, cnt) :: writes)
      | _ => none
    else do
      let (memory, ptr, args, firstWrites) ←
        packRepeat platform structType code cnt memory ptr (arg :: args)
      let (memory, writes) ← packItems structType fmt memory ptr args
      some (memory, firstWrites ++ writes)

/-- `struct_pack_into`, with the writes. -/
def structPackInto (memory : Memory) (fmt : List Char) (buf len : Nat) (offset : Int)
    (args : List Arg) : Option (Memory × List (Nat × Nat)) := do
  let offset ← bufferOffset len offset
  let sz ← structCalcsize platform fmt
  guard ((buf + offset : Nat) + sz ≤ (buf + len : Nat))
  let (structType, fmt) := getFmtType fmt
  let items ← fmtItems platform none fmt
  packItems platform structType items memory (buf + offset) args

/-! ## Slots -/

/-- One value of a format: bytes, or an integer of a code. -/
inductive Slot where
  | bytes (count : Nat)
  | int (code : Char) (field : Field)

/-- The field of a value. -/
def Slot.field : Slot → Field
  | .bytes count => .packed count
  | .int _ field => field

/-- The values of counts and codes. -/
def itemSlots (structType : Char) : List (Nat × Char) → Option (List Slot)
  | [] => some []
  | (cnt, code) :: items =>
    if code = 's' then do
      let slots ← itemSlots structType items
      some (.bytes cnt :: slots)
    else do
      let field ← mpBinaryGetSize platform structType code
      let slots ← itemSlots structType items
      some (List.replicate cnt (.int code field) ++ slots)

/-- The values of a format. -/
def fmtSlots (fmt : List Char) : Option (List Slot) := do
  let (structType, fmt) := getFmtType fmt
  let items ← fmtItems platform none fmt
  itemSlots platform structType items

/-- What the bytes of a value are unpacked to. -/
def Slot.decode (structType : Char) (slot : Slot) (data : List Nat) : Item :=
  match slot with
  | .bytes _ => .bytes data
  | .int code _ =>
    let val := mpBinaryGetInt (isSigned code) (isBig platform structType) data
    .int (if isSigned code then val else val % 2 ^ 64)

/-- The bytes that an argument is packed to. -/
def Slot.encode (structType : Char) (slot : Slot) (arg : Arg) : List Nat :=
  match slot, arg with
  | _, .bytes data => data
  | .bytes _, _ => []
  | .int code field, .small value =>
    ordered (isBig platform structType) (smallIntBytes platform (isSigned code) field.size value)
  | .int _ field, .big value =>
    ordered (isBig platform structType) (mpObjIntToBytesImpl platform.config value field.size)

/-- What an argument is unpacked to. -/
def Arg.item : Arg → Item
  | .small value => .int value
  | .big value => .int (value.value platform.config)
  | .bytes data => .bytes data

/-- An argument is in the range of a value: as many bytes as the count, or an integer that the code is
for, as a small int or as a big integer without leading zeros. -/
inductive Fits : Slot → Arg → Prop where
  | bytes {data : List Nat} : Fits (.bytes data.length) (.bytes data)
  | small {code : Char} {field : Field} {value : Int} (fits : platform.SmallIntFits value)
      (inRange : InRange (isSigned code) field.size value) : Fits (.int code field) (.small value)
  | big {code : Char} {field : Field} {value : MpzT}
      (are : AreDigits platform.config.digBase value.dig) (normal : Normal value.dig)
      (inRange : InRange (isSigned code) field.size (value.value platform.config)) :
      Fits (.int code field) (.big value)

/-! ## The loops -/

variable {memory : Memory}

section Loops

variable {platform : Platform} {structType : Char}

section

variable {code : Char} {field : Field}
  (isField : mpBinaryGetSize platform structType code = some field)

include code field isField

theorem start_eq (ptr : Nat) :
    (if structType = '@' then alignUp ptr field.align else ptr) = field.start ptr := by
  split_ifs with native
  · rfl
  · have packed : field.align = 1 := by
      unfold mpBinaryGetSize at isField
      split at isField
      · split at isField <;> simp_all [Field.packed] <;> subst isField <;> rfl
      · split at isField <;> simp_all [Field.packed] <;> subst isField <;> rfl
      · exact absurd rfl native
      · cases isField
    rw [Field.start, packed, alignUp_one]

theorem field_size :
    0 < field.size ∧ field.size ≤ 8 := by
  have sizes := platform.sizes
  simp only [List.mem_cons, List.not_mem_nil, or_false, forall_eq_or_imp, forall_eq] at sizes
  obtain ⟨short, int, long, longLong, pointer⟩ := sizes
  unfold mpBinaryGetSize at isField
  split at isField
  · split at isField <;> cases isField <;> first | exact pointer | decide
  · split at isField <;> cases isField <;> first | assumption | decide
  · split at isField <;> cases isField <;> first | assumption | decide
  · cases isField

theorem mpBinaryGetVal_eq (memory : Memory) (ptr : Nat) :
    mpBinaryGetVal platform memory structType code ptr =
      some (if isSigned code then
          mpBinaryGetInt (isSigned code) (isBig platform structType)
            (readBytes memory (field.start ptr) field.size)
        else mpBinaryGetInt (isSigned code) (isBig platform structType)
            (readBytes memory (field.start ptr) field.size) % 2 ^ 64,
        field.start ptr, field.size) := by
  rw [mpBinaryGetVal, isField]
  simp only [Option.bind_eq_bind, Option.bind_some, start_eq isField]

end

variable {cnt : Nat} {code : Char} {items : List (Nat × Char)} {slots : List Slot}

theorem itemSlots_cons (isSlots : itemSlots platform structType ((cnt, code) :: items) = some slots) :
    (code = 's' ∧ ∃ rest, itemSlots platform structType items = some rest ∧
      slots = .bytes cnt :: rest) ∨
    (code ≠ 's' ∧ ∃ field rest, mpBinaryGetSize platform structType code = some field ∧
      itemSlots platform structType items = some rest ∧
      slots = List.replicate cnt (.int code field) ++ rest) := by
  rw [itemSlots] at isSlots
  split_ifs at isSlots with isBytes
  · obtain ⟨rest, isRest, same⟩ := Option.bind_eq_some_iff.mp isSlots
    exact .inl ⟨isBytes, rest, isRest, (Option.some.inj same).symm⟩
  · obtain ⟨field, isField, isSlots⟩ := Option.bind_eq_some_iff.mp isSlots
    obtain ⟨rest, isRest, same⟩ := Option.bind_eq_some_iff.mp isSlots
    exact .inr ⟨isBytes, field, rest, isField, isRest, (Option.some.inj same).symm⟩

variable {field : Field}

theorem unpackRepeat_eq (isField : mpBinaryGetSize platform structType code = some field)
    (memory : Memory) (cnt ptr : Nat) :
    unpackRepeat platform memory structType code cnt ptr =
      some (List.zipWith (Slot.decode platform structType) (List.replicate cnt (.int code field))
          (load memory ptr (List.replicate cnt field)),
        places ptr (List.replicate cnt field), finish ptr (List.replicate cnt field)) := by
  induction cnt generalizing ptr with
  | zero => rfl
  | succ cnt ih =>
    rw [unpackRepeat, mpBinaryGetVal_eq isField]
    have next : field.start ptr + field.size = field.stop ptr := rfl
    simp only [Option.bind_eq_bind, Option.bind_some, next, ih,
      List.replicate_succ, load, places, finish, List.zipWith_cons_cons, Slot.decode]

/-- What is unpacked, and where it is read. -/
theorem unpackItems_eq (isSlots : itemSlots platform structType items = some slots)
    {i numItems : Nat} (count : numItems = i + slots.length) (ptr : Nat) :
    unpackItems platform memory structType numItems items i ptr =
      some (List.zipWith (Slot.decode platform structType) slots
          (load memory ptr (slots.map Slot.field)),
        places ptr (slots.map Slot.field)) := by
  induction items generalizing slots i ptr with
  | nil =>
    cases isSlots
    rw [unpackItems, if_pos (by simpa using count.le)]
    rfl
  | cons item items ih =>
    obtain ⟨cnt, code⟩ := item
    rw [unpackItems]
    by_cases done : numItems ≤ i
    · have none : slots = [] := List.eq_nil_of_length_eq_zero (by omega)
      rw [if_pos done, none]
      rfl
    · rw [if_neg done]
      rcases itemSlots_cons isSlots with ⟨rfl, rest, isRest, rfl⟩ |
        ⟨notBytes, field, rest, isField, isRest, rfl⟩
      · rw [List.length_cons] at count
        rw [if_pos rfl, ih isRest (by omega)]
        simp only [Option.bind_eq_bind, Option.bind_some, List.map_cons, Slot.field, load, places,
          List.zipWith_cons_cons, Slot.decode, Field.packed_start, Field.packed_stop,
          Field.packed_size]
      · rw [List.length_append, List.length_replicate] at count
        rw [if_neg notBytes, unpackRepeat_eq isField]
        simp only [Option.bind_eq_bind, Option.bind_some]
        rw [ih isRest (by omega), Option.bind_some, List.map_append,
          List.map_replicate, load_append, places_append, List.zipWith_append]
        · rfl
        · simp

variable {arg : Arg}

theorem length_encode {slot : Slot} (fits : Fits platform slot arg) :
    (slot.encode platform structType arg).length = slot.field.size := by
  cases fits with
  | bytes => rfl
  | small fits inRange =>
    rw [Slot.encode, length_ordered, smallIntBytes_eq fits inRange, length_twosBytes]
    rfl
  | big =>
    rw [Slot.encode, length_ordered, length_mpObjIntToBytesImpl]
    rfl

theorem mpBinarySetVal_eq (isField : mpBinaryGetSize platform structType code = some field)
    (fits : Fits platform (.int code field) arg) (memory : Memory) (ptr : Nat) :
    mpBinarySetVal platform memory structType code arg ptr =
      some (writeBytes memory (field.start ptr) ((Slot.int code field).encode platform structType arg),
        field.start ptr, field.size) := by
  rw [mpBinarySetVal, isField]
  cases fits <;>
    simp only [Option.bind_eq_bind, Option.bind_some, start_eq isField, Slot.encode]

/-- The contents of the fields: what the arguments are packed to. -/
def contents (platform : Platform) (structType : Char) (slots : List Slot) (args : List Arg) :
    List (Field × List Nat) :=
  List.zipWith (fun slot arg => (slot.field, slot.encode platform structType arg)) slots args

variable {args : List Arg}

theorem contents_fields (fits : List.Forall₂ (Fits platform) slots args) :
    (contents platform structType slots args).map Prod.fst = slots.map Slot.field := by
  induction fits with
  | nil => rfl
  | cons _ _ ih =>
    rw [contents, List.zipWith_cons_cons, List.map_cons, List.map_cons, ← ih]
    rfl

theorem contents_data (slots : List Slot) (args : List Arg) :
    (contents platform structType slots args).map Prod.snd =
      List.zipWith (Slot.encode platform structType) slots args := by
  rw [contents, List.map_zipWith]

theorem contents_sizes (fits : List.Forall₂ (Fits platform) slots args) :
    ∀ entry ∈ contents platform structType slots args, entry.2.length = entry.1.size := by
  induction fits with
  | nil => simp [contents]
  | cons first _ ih =>
    rw [contents, List.zipWith_cons_cons, List.forall_mem_cons]
    exact ⟨length_encode first, ih⟩

theorem fits_append {first second : List Slot}
    (fits : List.Forall₂ (Fits platform) (first ++ second) args) :
    ∃ early late, args = early ++ late ∧ List.Forall₂ (Fits platform) first early ∧
      List.Forall₂ (Fits platform) second late :=
  ⟨args.take first.length, args.drop first.length, (List.take_append_drop _ _).symm,
    by simpa using List.forall₂_take first.length fits,
    by simpa using List.forall₂_drop first.length fits⟩

theorem packRepeat_eq (isField : mpBinaryGetSize platform structType code = some field)
    (fits : List.Forall₂ (Fits platform) (List.replicate cnt (.int code field)) args)
    (memory : Memory) (ptr : Nat) (others : List Arg) :
    packRepeat platform structType code cnt memory ptr (args ++ others) =
      some (store memory ptr
          (contents platform structType (List.replicate cnt (.int code field)) args),
        finish ptr (List.replicate cnt field), others, places ptr (List.replicate cnt field)) := by
  induction cnt generalizing args memory ptr with
  | zero =>
    cases fits
    cases others <;> rfl
  | succ cnt ih =>
    obtain ⟨arg, args, first, rest, rfl⟩ := List.forall₂_cons_left_iff.mp fits
    rw [List.cons_append, packRepeat, mpBinarySetVal_eq isField first]
    have next : field.start ptr + field.size = field.stop ptr := rfl
    simp only [Option.bind_eq_bind, Option.bind_some, next, ih rest,
      List.replicate_succ, contents, List.zipWith_cons_cons, store, places, finish, Slot.field]

theorem packItems_int (notBytes : code ≠ 's') (items : List (Nat × Char)) (memory : Memory)
    (ptr : Nat) (arg : Arg) (args : List Arg) :
    packItems platform structType ((cnt, code) :: items) memory ptr (arg :: args) = (do
      let (memory, ptr, args, firstWrites) ←
        packRepeat platform structType code cnt memory ptr (arg :: args)
      let (memory, writes) ← packItems platform structType items memory ptr args
      some (memory, firstWrites ++ writes)) := by
  cases arg <;> rw [packItems, if_neg notBytes] <;> simp

/-- What is packed, and where it is written. -/
theorem packItems_eq (isSlots : itemSlots platform structType items = some slots)
    (fits : List.Forall₂ (Fits platform) slots args) (memory : Memory) (ptr : Nat) :
    packItems platform structType items memory ptr args =
      some (store memory ptr (contents platform structType slots args),
        places ptr (slots.map Slot.field)) := by
  induction items generalizing slots args memory ptr with
  | nil =>
    cases isSlots
    cases fits
    rfl
  | cons item items ih =>
    obtain ⟨cnt, code⟩ := item
    cases args with
    | nil =>
      cases fits
      rfl
    | cons arg args =>
      rcases itemSlots_cons isSlots with ⟨rfl, rest, isRest, rfl⟩ |
        ⟨notBytes, field, rest, isField, isRest, rfl⟩
      · obtain ⟨first, others⟩ := List.forall₂_cons.mp fits
        cases first with
        | @bytes data =>
          rw [packItems, if_pos rfl]
          simp only [Nat.min_self, List.take_length, Nat.sub_self, List.replicate_zero,
            List.append_nil, Option.bind_eq_bind, ih isRest others,
            Option.bind_some, contents, List.zipWith_cons_cons, store, List.map_cons, places,
            Slot.field, Slot.encode, Field.packed_start, Field.packed_stop, Field.packed_size]
      · obtain ⟨early, late, same, earlyFits, lateFits⟩ := fits_append fits
        rw [packItems_int notBytes, same, packRepeat_eq isField earlyFits]
        simp only [Option.bind_eq_bind, Option.bind_some, ih isRest lateFits,
          List.map_append, List.map_replicate, places_append, Slot.field]
        have whole : contents platform structType (List.replicate cnt (.int code field) ++ rest)
            (early ++ late) = contents platform structType (List.replicate cnt (.int code field))
              early ++ contents platform structType rest late :=
          List.zipWith_append earlyFits.length_eq
        rw [whole, store_append, contents_fields earlyFits, List.map_replicate]
        rfl

/-- The number of values, and no size without a byte. -/
theorem calcSizeItems_eq {totalCnt size numItems totalSz : Nat}
    (isSize : calcSizeItems platform structType items totalCnt size = some (numItems, totalSz)) :
    ∃ slots, itemSlots platform structType items = some slots ∧
      numItems = totalCnt + slots.length ∧
      ((∀ slot ∈ slots, slot.field.size = 0) → size = 0 → totalSz = 0) := by
  induction items generalizing totalCnt size with
  | nil =>
    cases isSize
    exact ⟨[], rfl, rfl, fun _ => id⟩
  | cons item items ih =>
    obtain ⟨cnt, code⟩ := item
    rw [calcSizeItems] at isSize
    rw [itemSlots]
    split_ifs at isSize ⊢ with isBytes
    · obtain ⟨slots, isSlots, count, empty⟩ := ih isSize
      refine ⟨_, by rw [isSlots]; rfl, by rw [count, List.length_cons]; omega, ?_⟩
      intro all zero
      obtain ⟨first, all⟩ := List.forall_mem_cons.mp all
      have noBytes : cnt = 0 := first
      exact empty all (by rw [zero, noBytes, Nat.zero_mod])
    · obtain ⟨field, isField, isSize⟩ := Option.bind_eq_some_iff.mp isSize
      obtain ⟨slots, isSlots, count, empty⟩ := ih isSize
      refine ⟨_, by rw [isField, isSlots]; rfl, ?_, ?_⟩
      · rw [count, List.length_append, List.length_replicate]
        omega
      · intro all zero
        obtain ⟨first, all⟩ := List.forall_mem_append.mp all
        cases cnt with
        | zero => exact empty all zero
        | succ cnt =>
          have none : field.size = 0 := first (.int code field) (by simp)
          have := (field_size isField).1
          omega

theorem itemSlots_sizes (isSlots : itemSlots platform structType items = some slots) :
    ∀ slot ∈ slots, ∀ code field, slot = .int code field → 0 < field.size ∧ field.size ≤ 8 := by
  induction items generalizing slots with
  | nil =>
    cases isSlots
    simp
  | cons item items ih =>
    rcases itemSlots_cons isSlots with ⟨-, rest, isRest, rfl⟩ |
      ⟨-, field, rest, isField, isRest, rfl⟩
    · rw [List.forall_mem_cons]
      exact ⟨fun _ _ other => (nomatch other), ih isRest⟩
    · rw [List.forall_mem_append]
      refine ⟨fun slot member code other same => ?_, ih isRest⟩
      rw [List.eq_of_mem_replicate member] at same
      cases same
      exact field_size isField

/-! ## Values -/

/-- Whether all bytes of an argument are written: a negative big integer has as many bytes as its
code. -/
def Covers (platform : Platform) : Slot → Arg → Prop
  | .int _ field, .big value =>
    value.value platform.config < 0 →
      field.size ≤ value.dig.length * digBytes platform.config
  | _, _ => True

instance (slot : Slot) (arg : Arg) : Decidable (Covers platform slot arg) :=
  match slot, arg with
  | .int _ _, .big _ => inferInstanceAs (Decidable (_ → _))
  | .int _ _, .small _ => inferInstanceAs (Decidable True)
  | .int _ _, .bytes _ => inferInstanceAs (Decidable True)
  | .bytes _, _ => inferInstanceAs (Decidable True)

theorem decode_ordered {bytes : List Nat} (size : 0 < field.size ∧ field.size ≤ 8)
    (length : bytes.length = field.size) (small : ∀ byte ∈ bytes, byte < 256) :
    (Slot.int code field).decode platform structType (ordered (isBig platform structType) bytes) =
      .int (intOf (isSigned code) bytes) := by
  have nonempty : bytes ≠ [] := List.ne_nil_of_length_pos (by omega)
  rw [Slot.decode, mpBinaryGetInt_ordered]
  simp only [mpBinaryGetInt_eq (isSigned code) nonempty (by omega) small]

/-- An argument that fits its value is unpacked to what it is, exactly when all of its bytes are
written. -/
theorem decode_encode {slot : Slot} (fits : Fits platform slot arg)
    (sizes : ∀ code field, slot = .int code field → 0 < field.size ∧ field.size ≤ 8) :
    slot.decode platform structType (slot.encode platform structType arg) = arg.item platform ↔
      Covers platform slot arg := by
  cases fits with
  | bytes => exact iff_of_true rfl trivial
  | @small code field value fits inRange =>
    rw [Slot.encode, smallIntBytes_eq fits inRange, decode_ordered (sizes code field rfl)
      (length_twosBytes _ _) twosBytes_lt, intOf_twosBytes inRange]
    exact iff_of_true rfl trivial
  | @big code field value are normal inRange =>
    obtain ⟨whole, large⟩ := platform.wholeBytes
    have written := mpObjIntToBytesImpl_lt whole large are field.size
    rw [Slot.encode, decode_ordered (sizes code field rfl) (length_mpObjIntToBytesImpl _ _) written,
      Arg.item, Item.int.injEq, Covers]
    constructor
    · intro same negative
      by_contra short
      refine mpObjIntToBytesImpl_ne whole large are inRange negative (Nat.lt_of_not_le short) ?_
      have back := @twosBytes_intOf (isSigned code) _ written
      rwa [same, length_mpObjIntToBytesImpl, eq_comm] at back
    · intro enough
      rw [mpObjIntToBytesImpl_eq whole large are enough, intOf_twosBytes inRange]

theorem decode_encode_all (fits : List.Forall₂ (Fits platform) slots args)
    (sizes : ∀ slot ∈ slots, ∀ code field, slot = .int code field → 0 < field.size ∧ field.size ≤ 8) :
    List.zipWith (Slot.decode platform structType) slots
        (List.zipWith (Slot.encode platform structType) slots args) = args.map (Arg.item platform) ↔
      ∀ pair ∈ slots.zip args, Covers platform pair.1 pair.2 := by
  induction fits with
  | nil => simp
  | cons first _ ih =>
    obtain ⟨firstSizes, sizes⟩ := List.forall_mem_cons.mp sizes
    rw [List.zipWith_cons_cons, List.zipWith_cons_cons, List.map_cons, List.cons.injEq,
      List.zip_cons_cons, List.forall_mem_cons, decode_encode first firstSizes,
      ih sizes]

end Loops

/-! ## Buffers -/

/-- All bytes that are accessed are among so many from an address on. -/
def Within (start : Nat) (size : Int) (accesses : List (Nat × Nat)) : Prop :=
  ∀ access ∈ accesses, ∀ address, access.1 ≤ address → address < access.1 + access.2 →
    start ≤ address ∧ (address : Int) < start + size

theorem within_places_iff {start : Nat} {size : Int} {fields : List Field}
    (empty : (∀ field ∈ fields, field.size = 0) → size = 0) :
    Within start size (places start fields) ↔ (finish start fields : Int) ≤ start + size := by
  constructor
  · intro within
    rcases finish_attained start fields with ⟨ends, none⟩ | ⟨place, member, positive, ends⟩
    · rw [ends, empty none]
      omega
    · have last := (within place member (place.1 + place.2 - 1) (by omega) (by omega)).2
      omega
  · intro ends access member address above below
    obtain ⟨lower, upper⟩ := places_within member
    exact ⟨by omega, by omega⟩

/-- What packing and unpacking with one format, buffer and offset are for: they access no byte
outside of the size of the format, and what was packed is unpacked. -/
structure PacksAndUnpacks (memory : Memory) (fmt : List Char) (buf len : Nat) (offset : Int)
    (args : List Arg) (start : Nat) (size : Int) : Prop where
  reads : ∀ contents items accesses,
    structUnpackFrom platform contents fmt buf len offset = some (items, accesses) →
      Within start size accesses
  writes : ∀ after accesses,
    structPackInto platform memory fmt buf len offset args = some (after, accesses) →
      Within start size accesses
  values : ∃ after written read,
    structPackInto platform memory fmt buf len offset args = some (after, written) ∧
      structUnpackFrom platform after fmt buf len offset = some (args.map (Arg.item platform), read)

section Buffers

variable {platform : Platform} {fmt : List Char} {buf len off : Nat} {offset : Int} {size : Int}
  {slots : List Slot}

section

variable (isSlots : fmtSlots platform fmt = some slots)
  (isSize : structCalcsize platform fmt = some size)

include isSlots isSize

theorem fmt_parts :
    ∃ items totalSz, fmtItems platform none (getFmtType fmt).2 = some items ∧
      itemSlots platform (getFmtType fmt).1 items = some slots ∧
      calcSizeItems platform (getFmtType fmt).1 items 0 0 = some (slots.length, totalSz) ∧
      ((∀ slot ∈ slots, slot.field.size = 0) → size = 0) := by
  rw [fmtSlots] at isSlots
  rw [structCalcsize] at isSize
  obtain ⟨items, isItems, isSlots⟩ := Option.bind_eq_some_iff.mp isSlots
  obtain ⟨items', isItems', isSize⟩ := Option.bind_eq_some_iff.mp isSize
  obtain ⟨⟨numItems, totalSz⟩, isTotal, isSize⟩ := Option.bind_eq_some_iff.mp isSize
  cases isItems.symm.trans isItems'
  obtain ⟨slots', isSlots', count, empty⟩ := calcSizeItems_eq isTotal
  cases isSlots.symm.trans isSlots'
  rw [Nat.zero_add] at count
  subst count
  refine ⟨items, totalSz, isItems, isSlots, isTotal, fun none => ?_⟩
  rw [← Option.some.inj isSize, empty none rfl, Int.natCast_zero, Int.zero_bmod]

theorem structUnpackFrom_eq (isOff : bufferOffset len offset = some off)
    (accepted : (structUnpackFrom platform memory fmt buf len offset).isSome) (contents : Memory) :
    structUnpackFrom platform contents fmt buf len offset =
      some (List.zipWith (Slot.decode platform (getFmtType fmt).1) slots
          (load contents (buf + off) (slots.map Slot.field)),
        places (buf + off) (slots.map Slot.field)) := by
  obtain ⟨items, totalSz, isItems, isSlots, isTotal, -⟩ := fmt_parts isSlots isSize
  rw [structUnpackFrom] at accepted ⊢
  generalize getFmtType fmt = parts at *
  simp only [Option.bind_eq_bind, isItems, Option.bind_some, isTotal, isOff] at accepted ⊢
  by_cases room : buf + off + totalSz ≤ buf + len
  · simp only [guard, if_pos room, Option.pure_def, Option.bind_some]
    exact unpackItems_eq isSlots (Nat.zero_add _).symm _
  · rw [guard, if_neg room] at accepted
    cases accepted

/-- What is packed, and where it is written. -/
theorem structPackInto_eq (isOff : bufferOffset len offset = some off) {args : List Arg}
    (fits : List.Forall₂ (Fits platform) slots args)
    (accepted : (structPackInto platform memory fmt buf len offset args).isSome) :
    structPackInto platform memory fmt buf len offset args =
      some (store memory (buf + off) (contents platform (getFmtType fmt).1 slots args),
        places (buf + off) (slots.map Slot.field)) := by
  obtain ⟨items, totalSz, isItems, isSlots, isTotal, -⟩ := fmt_parts isSlots isSize
  rw [structPackInto] at accepted ⊢
  simp only [Option.bind_eq_bind, Option.bind_some, isOff, isSize] at accepted ⊢
  generalize getFmtType fmt = parts at *
  simp only [isItems, Option.bind_some] at accepted ⊢
  by_cases room : ((buf + off : Nat) : Int) + size ≤ (buf + len : Nat)
  · simp only [guard, if_pos room, Option.pure_def, Option.bind_some]
    exact packItems_eq isSlots fits _ _
  · rw [guard, if_neg room] at accepted
    cases accepted

/-- Packing and unpacking do what they are for exactly when the fields, aligned as they are in memory,
end within the size of the format, and every negative big integer has as many bytes as its code. -/
theorem packsAndUnpacks_iff (isOff : bufferOffset len offset = some off) {args : List Arg}
    (fits : List.Forall₂ (Fits platform) slots args) {memory : Memory}
    (unpacks : (structUnpackFrom platform memory fmt buf len offset).isSome)
    (packs : (structPackInto platform memory fmt buf len offset args).isSome) :
    PacksAndUnpacks platform memory fmt buf len offset args (buf + off) size ↔
      (finish (buf + off) (slots.map Slot.field) : Int) ≤ (buf + off : Nat) + size ∧
        ∀ pair ∈ slots.zip args, Covers platform pair.1 pair.2 := by
  have unpacked := structUnpackFrom_eq isSlots isSize isOff unpacks
  have packed := structPackInto_eq isSlots isSize isOff fits packs
  obtain ⟨items, totalSz, isItems, isParts, isTotal, empty⟩ := fmt_parts isSlots isSize
  have noBytes : (∀ field ∈ slots.map Slot.field, field.size = 0) → size = 0 := by
    simpa using empty
  have loaded := load_store (@contents_sizes platform (getFmtType fmt).1 slots args fits) memory
    (buf + off)
  rw [contents_fields fits, contents_data] at loaded
  have back := unpacked (store memory (buf + off) (contents platform (getFmtType fmt).1 slots args))
  rw [loaded] at back
  have values := @decode_encode_all platform (getFmtType fmt).1 slots args fits
    (itemSlots_sizes isParts)
  constructor
  · rintro ⟨reads, -, after, written, read, isPacked, isUnpacked⟩
    refine ⟨(within_places_iff noBytes).mp (reads memory _ _ (unpacked memory)), values.mp ?_⟩
    cases packed.symm.trans isPacked
    exact congrArg Prod.fst (Option.some.inj (back.symm.trans isUnpacked))
  · rintro ⟨ends, covers⟩
    refine ⟨?_, ?_, ?_⟩
    · intro contents items accesses isUnpacked
      cases (unpacked contents).symm.trans isUnpacked
      exact (within_places_iff noBytes).mpr ends
    · intro after accesses isPacked
      cases packed.symm.trans isPacked
      exact (within_places_iff noBytes).mpr ends
    · rw [values.mpr covers] at back
      exact ⟨_, _, _, packed, back⟩

end

end Buffers

theorem short_positive : 0 < 2 := by decide

theorem short_plain : 2 = 0 → 2 = 1 := by decide

theorem int_positive : 0 < 4 := by decide

theorem int_plain : 4 = 0 → 4 = 1 := by decide

theorem longLong_positive : 0 < 8 := by decide

theorem longLong_plain : 8 = 0 → 8 = 1 := by decide

/-- The platform of the `esp32` port. -/
def esp32 : Platform where
  bigEndian := false
  word := 4
  short := ⟨2, 2, short_positive, short_plain⟩
  int := ⟨4, 4, int_positive, int_plain⟩
  long := ⟨4, 4, int_positive, int_plain⟩
  longLong := ⟨8, 8, longLong_positive, longLong_plain⟩
  pointer := ⟨4, 4, int_positive, int_plain⟩
  sizes := by decide
  smallBits := 31
  smallFits := by decide
  config := .digits16
  wholeBytes := by decide

/-- An integer at an offset that is not aligned is read past the size of its format, and a negative
integer of three digits loses its sign in eight bytes. -/
theorem packsAndUnpacks_fails :
    ¬ PacksAndUnpacks esp32 (fun _ => 0) ['i'] 16 8 1 [.small 0] 17 4 ∧
      ¬ PacksAndUnpacks esp32 (fun _ => 0) ['<', 'q'] 16 8 0 [.big ⟨true, [0, 0, 256]⟩] 16 8 := by
  constructor
  · intro meant
    have isUnpacked : structUnpackFrom esp32 (fun _ => 0) ['i'] 16 8 1 =
        some ([.int 0], [(20, 4)]) := by decide
    have := meant.reads _ _ _ isUnpacked (20, 4) (by simp) 23 (by simp) (by simp)
    omega
  · intro meant
    obtain ⟨after, written, read, isPacked, isUnpacked⟩ := meant.values
    have lost : (structPackInto esp32 (fun _ => 0) ['<', 'q'] 16 8 0
        [.big ⟨true, [0, 0, 256]⟩]).bind (fun result =>
          (structUnpackFrom esp32 result.1 ['<', 'q'] 16 8 0).map Prod.fst) =
        some [.int 280375465082880] := by decide
    rw [isPacked, Option.bind_some, isUnpacked] at lost
    have value : (Arg.big ⟨true, [0, 0, 256]⟩).item esp32 = .int (-1099511627776) := by
      decide
    rw [Option.map_some, List.map_singleton, value] at lost
    simp at lost

/-- Two integers and bytes at an offset of four. -/
theorem packsAndUnpacks_hq2s :
    PacksAndUnpacks esp32 (fun _ => 0) ['!', 'h', 'q', '2', 's'] 16 16 4
      [.small (-3), .big ⟨true, [1, 2, 3, 4]⟩, .bytes [65, 66]] 20 12 :=
  have bytes : Fits esp32 (.bytes 2) (.bytes [65, 66]) := @Fits.bytes esp32 [65, 66]
  have fits : List.Forall₂ (Fits esp32) [.int 'h' (.packed 2), .int 'q' (.packed 8), .bytes 2]
      [.small (-3), .big ⟨true, [1, 2, 3, 4]⟩, .bytes [65, 66]] :=
    .cons (.small (by decide) (by decide)) (.cons
      (.big (by simp [AreDigits, MpzConfig.digBase, MpzConfig.digits16, esp32])
        (by simp [Logic.Normal]) (by decide)) (.cons bytes .nil))
  (@packsAndUnpacks_iff esp32 ['!', 'h', 'q', '2', 's'] 16 16 4 4 12 _ rfl (by decide) rfl _
    fits _ (by decide) (by decide)).mpr (by decide)

end MultiPython.Struct
