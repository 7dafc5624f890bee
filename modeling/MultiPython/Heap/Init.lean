import MultiPython.Heap.Table

/-!
# Laying out a heap

`gcInit` is `gc_init`: it divides a byte range into allocation table, finaliser
table and pool. `gcInit_valid` shows that the three regions fit and do not
overlap for every range it can be given, also when the multiplication by eight
in the finaliser case wraps around. The pointer lemmas at the end are about
every valid layout.
-/

namespace MultiPython.Heap

/-- `memset` on a byte range. -/
def memset (memory : Memory) (start : Nat) (value : Byte) (count : Nat) : Memory :=
  fun address => if start ≤ address ∧ address < start + count then value else memory address

theorem memset_outside {memory : Memory} {start count address : Nat} (value : Byte)
    (outside : address < start ∨ start + count ≤ address) :
    memset memory start value count address = memory address := by
  rw [memset, if_neg]
  omega

variable (config : Config)

/-- `end & ~(BYTES_PER_BLOCK - 1)`. -/
def alignDown (stop : Nat) : Nat := stop / config.bytesPerBlock * config.bytesPerBlock

/-- `gc_alloc_table_byte_len` for a range of the given length, in `size_t` arithmetic. -/
def allocTableByteLenFor (totalByteLen : Nat) : Nat :=
  if config.enableFinaliser then
    totalByteLen * 8 % config.wordSpace /
      (8 + 8 * blocksPerAtb / blocksPerFtb + 8 * blocksPerAtb * config.bytesPerBlock)
  else
    totalByteLen / (1 + 8 / 2 * config.bytesPerBlock)

/-- `gc_finaliser_table_byte_len`, zero when there is no finaliser table. -/
def finaliserTableByteLen (allocTableByteLen : Nat) : Nat :=
  if config.enableFinaliser then
    (allocTableByteLen * blocksPerAtb + blocksPerFtb - 1) / blocksPerFtb
  else
    0

/-- The layout `gc_init` computes for `[start, stop)`. -/
def gcInitLayout (start stop : Nat) : Layout :=
  let stop := alignDown config stop
  let totalByteLen := (stop + config.wordSpace - start) % config.wordSpace
  let byteLen := allocTableByteLenFor config totalByteLen
  { allocTableStart := start
    allocTableByteLen := byteLen
    finaliserTableStart := if config.enableFinaliser then start + byteLen else 0
    poolStart := stop - byteLen * blocksPerAtb * config.bytesPerBlock
    poolEnd := stop }

/-- `gc_init`. The memory outside the two tables keeps its contents. -/
def gcInit (memory : Memory) (start stop : Nat) : MpStateMem :=
  let layout := gcInitLayout config start stop
  let cleared := memset memory layout.allocTableStart 0 layout.allocTableByteLen
  { memory := memset cleared layout.finaliserTableStart 0
      (finaliserTableByteLen config layout.allocTableByteLen)
    layout := layout
    gcStackOverflow := false
    gcLockDepth := 0
    gcAutoCollectEnabled := true
    gcAllocAmount := 0
    gcAllocThreshold := config.wordSpace - 1
    gcLastFreeAtbIndex := 0
    finalised := [] }

theorem alignDown_le (stop : Nat) : alignDown config stop ≤ stop := Nat.div_mul_le_self _ _

/-- The tables and the pool of the chosen size fit the range. -/
theorem tables_fit (total : Nat) :
    let byteLen := allocTableByteLenFor config total
    byteLen + finaliserTableByteLen config byteLen +
      byteLen * blocksPerAtb * config.bytesPerBlock ≤ total := by
  intro byteLen
  cases enabled : config.enableFinaliser with
  | true =>
    have quotient : byteLen * (12 + 32 * config.bytesPerBlock) ≤ total * 8 := by
      have bound : byteLen = total * 8 % config.wordSpace / (12 + 32 * config.bytesPerBlock) := by
        simp [byteLen, allocTableByteLenFor, enabled, blocksPerAtb, blocksPerFtb]
      rw [bound]
      exact (Nat.div_mul_le_self _ _).trans (Nat.mod_le _ _)
    have finaliser : finaliserTableByteLen config byteLen = (byteLen * 4 + 7) / 8 := by
      simp [finaliserTableByteLen, enabled, blocksPerAtb, blocksPerFtb]
    have pool : byteLen * (12 + 32 * config.bytesPerBlock) =
        12 * byteLen + 8 * (byteLen * blocksPerAtb * config.bytesPerBlock) := by
      rw [blocksPerAtb]
      ring
    rw [finaliser]
    omega
  | false =>
    have quotient : byteLen * (1 + 4 * config.bytesPerBlock) ≤ total := by
      have bound : byteLen = total / (1 + 4 * config.bytesPerBlock) := by
        simp [byteLen, allocTableByteLenFor, enabled]
      rw [bound]
      exact Nat.div_mul_le_self _ _
    have finaliser : finaliserTableByteLen config byteLen = 0 := by
      simp [finaliserTableByteLen, enabled]
    have pool : byteLen * (1 + 4 * config.bytesPerBlock) =
        byteLen + byteLen * blocksPerAtb * config.bytesPerBlock := by
      rw [blocksPerAtb]
      ring
    rw [finaliser]
    omega

theorem gcInit_valid (memory : Memory) {start stop : Nat} (ordered : start ≤ alignDown config stop)
    (bounded : stop < config.wordSpace) : (gcInit config memory start stop).layout.Valid config := by
  have stopLe := alignDown_le config stop
  have total : (alignDown config stop + config.wordSpace - start) % config.wordSpace =
      alignDown config stop - start := by
    rw [show alignDown config stop + config.wordSpace - start =
      (alignDown config stop - start) + config.wordSpace by omega, Nat.add_mod_right]
    exact Nat.mod_eq_of_lt (by omega)
  have fit := tables_fit config (alignDown config stop - start)
  simp only [gcInit, gcInitLayout, total]
  generalize allocTableByteLenFor config (alignDown config stop - start) = byteLen at fit ⊢
  refine ⟨?_, ?_, ?_, ?_, ?_, ?_⟩ <;> simp only [Layout.blocks]
  · omega
  · intro enabled
    simp [enabled]
  · intro enabled
    simp only [finaliserTableByteLen, enabled, if_true] at fit ⊢
    omega
  · omega
  · exact Nat.dvd_sub (Nat.dvd_mul_left _ _) (Nat.dvd_mul_left _ _)
  · omega

/-- The two tables and the pool lie in the range one behind the other, in whole blocks, with an entry
for each block, and none of the numbers they are computed from is too large for a word. -/
structure LaysOut (start stop : Nat) : Prop where
  starts : (gcInitLayout config start stop).allocTableStart = start
  finaliserBehind : config.enableFinaliser = true →
    (gcInitLayout config start stop).finaliserTableStart =
      start + (gcInitLayout config start stop).allocTableByteLen
  poolBehind : start + (gcInitLayout config start stop).allocTableByteLen +
    finaliserTableByteLen config (gcInitLayout config start stop).allocTableByteLen ≤
      (gcInitLayout config start stop).poolStart
  inside : (gcInitLayout config start stop).poolStart ≤ (gcInitLayout config start stop).poolEnd ∧
    (gcInitLayout config start stop).poolEnd ≤ stop
  onGrid : config.bytesPerBlock ∣ (gcInitLayout config start stop).poolStart ∧
    config.bytesPerBlock ∣ (gcInitLayout config start stop).poolEnd
  blocks : (gcInitLayout config start stop).poolEnd =
    (gcInitLayout config start stop).poolStart +
      (gcInitLayout config start stop).allocTableByteLen * blocksPerAtb * config.bytesPerBlock
  finalisers : config.enableFinaliser = true →
    (gcInitLayout config start stop).allocTableByteLen * blocksPerAtb ≤
      finaliserTableByteLen config (gcInitLayout config start stop).allocTableByteLen *
        blocksPerFtb
  noWrap : (gcInitLayout config start stop).allocTableByteLen * blocksPerAtb *
    config.bytesPerBlock < config.wordSpace

/-- Whatever remains of the two divisions, the regions of `gc_init` do not overlap. -/
theorem gcInit_laysOut {start stop : Nat} (ordered : start ≤ alignDown config stop)
    (bounded : stop < config.wordSpace) : LaysOut config start stop := by
  have stopLe := alignDown_le config stop
  have valid := gcInit_valid config (fun _ => 0#8) ordered bounded
  have poolLength := valid.poolLength
  have total : (alignDown config stop + config.wordSpace - start) % config.wordSpace =
      alignDown config stop - start := by
    rw [Nat.sub_add_comm ordered, Nat.add_mod_right]
    exact Nat.mod_eq_of_lt (by omega)
  have fit := tables_fit config (alignDown config stop - start)
  simp only [gcInit, gcInitLayout, total, Layout.blocks] at poolLength
  constructor <;> simp only [gcInitLayout, total]
  · intro enabled
    rw [enabled, if_pos rfl]
  · omega
  · exact ⟨Nat.sub_le _ _, stopLe⟩
  · exact ⟨Nat.dvd_sub (Nat.dvd_mul_left _ _) (Nat.dvd_mul_left _ _), Nat.dvd_mul_left _ _⟩
  · exact poolLength
  · intro enabled
    rw [finaliserTableByteLen, if_pos enabled, blocksPerAtb, blocksPerFtb]
    omega
  · omega

/-- With a range of 65 bytes, the allocation table has one entry and the pool four blocks. -/
theorem gcInit_laysOut_small : 14 ≤ alignDown smallConfig 80 ∧ LaysOut smallConfig 14 80 :=
  ⟨by decide, gcInit_laysOut smallConfig (by decide) (by decide)⟩

theorem gcInit_table_before_finaliser {start stop address : Nat}
    (below : address < (gcInitLayout config start stop).allocTableStart +
      (gcInitLayout config start stop).allocTableByteLen) :
    address < (gcInitLayout config start stop).finaliserTableStart ∨
      (gcInitLayout config start stop).finaliserTableStart +
        finaliserTableByteLen config (gcInitLayout config start stop).allocTableByteLen ≤
          address := by
  cases enabled : config.enableFinaliser with
  | true =>
    refine Or.inl (Nat.lt_of_lt_of_eq below ?_)
    simp [gcInitLayout, enabled]
  | false =>
    refine Or.inr (Nat.le_trans (Nat.le_of_eq ?_) (Nat.zero_le _))
    simp [gcInitLayout, finaliserTableByteLen, enabled]

theorem gcInit_free (memory : Memory) (start stop : Nat) {block : Nat}
    (inside : block < (gcInit config memory start stop).blocks) :
    (gcInit config memory start stop).atbGetKind block = .free := by
  have below := MpStateMem.atbAddress_lt _ inside
  have above : (gcInitLayout config start stop).allocTableStart ≤
      (gcInit config memory start stop).atbAddress block := Nat.le_add_right _ _
  apply MpStateMem.kind_of_zero
  change memset _ _ _ _ ((gcInit config memory start stop).atbAddress block) = 0#8
  rw [memset_outside _ (gcInit_table_before_finaliser config below), memset,
    if_pos ⟨above, below⟩]
  rfl

namespace MpStateMem

variable {config} {state : MpStateMem}

@[simp] theorem blockFromPtr_ptrFromBlock (block : Nat) :
    state.blockFromPtr config (state.ptrFromBlock config block) = block := by
  rw [blockFromPtr, ptrFromBlock, Nat.add_sub_cancel]
  exact Nat.mul_div_cancel _ config.bytesPerBlock_pos

theorem verifyPtr_iff (valid : state.layout.Valid config) {ptr : Nat} :
    state.verifyPtr config ptr = true ↔
      ∃ block < state.blocks, ptr = state.ptrFromBlock config block := by
  have aligned : ptr &&& (config.bytesPerBlock - 1) = ptr % config.bytesPerBlock := by
    rw [Config.bytesPerBlock_eq_two_pow]
    exact Nat.and_two_pow_sub_one_eq_mod _ _
  have positive := config.bytesPerBlock_pos
  obtain ⟨base, baseEq⟩ := valid.poolAligned
  simp only [verifyPtr, aligned, Bool.and_eq_true, beq_iff_eq, decide_eq_true_eq,
    valid.poolLength, ptrFromBlock, blocks]
  constructor
  · rintro ⟨⟨multiple, above⟩, below⟩
    obtain ⟨count, countEq⟩ := Nat.dvd_of_mod_eq_zero multiple
    have baseLe : base ≤ count := by
      apply Nat.le_of_mul_le_mul_left _ positive
      omega
    refine ⟨count - base, ?_, ?_⟩
    · apply Nat.lt_of_mul_lt_mul_right (a := config.bytesPerBlock)
      rw [Nat.sub_mul, Nat.mul_comm count, Nat.mul_comm base]
      omega
    · rw [Nat.sub_mul, Nat.mul_comm count, Nat.mul_comm base]
      have := Nat.mul_le_mul_left config.bytesPerBlock baseLe
      omega
  · rintro ⟨block, inside, rfl⟩
    refine ⟨⟨?_, Nat.le_add_left _ _⟩, ?_⟩
    · rw [baseEq, Nat.mul_comm block, ← Nat.mul_add]
      exact Nat.mul_mod_right _ _
    · have := Nat.mul_lt_mul_of_pos_right inside positive
      omega

theorem blockFromPtr_lt (valid : state.layout.Valid config) {ptr : Nat}
    (verified : state.verifyPtr config ptr = true) :
    state.blockFromPtr config ptr < state.blocks := by
  obtain ⟨block, inside, rfl⟩ := (verifyPtr_iff valid).mp verified
  simpa using inside

end MpStateMem

end MultiPython.Heap
