import MultiPython.Vm.Emit

/-!
# The two passes agree

The `EMIT` pass writes as much as the `CODE_SIZE` pass has counted, except for the size of the code
info, for which two bytes have been reserved. `Follows` says how the states of the two passes are
related; it survives every write, and keeps the labels where they were counted.
-/

namespace MultiPython.Vm

open List Option

variable {context : EmitContext}

/-! ## Encodings -/

theorem length_markGroups (groups : List Nat) : (markGroups groups).length = groups.length := by
  induction groups with
  | nil => rfl
  | cons group groups ih =>
    cases groups with
    | nil => rfl
    | cons next groups =>
      simp only [markGroups, length_cons] at ih ⊢
      rw [ih]

theorem length_uintBytes (config : EmitConfig) {val : Nat} (small : val < 2 ^ 14) :
    (uintBytes config val).length = if val < 128 then 1 else 2 := by
  have room : ∃ room, config.bytesForInt = room + 2 := by
    rw [EmitConfig.bytesForInt, EmitConfig.bytesPerWord]
    split_ifs
    · exact ⟨8, rfl⟩
    · exact ⟨3, rfl⟩
  obtain ⟨room, isRoom⟩ := room
  rw [uintBytes, length_markGroups, isRoom, uintGroups]
  by_cases one : val < 128
  · rw [if_pos (Nat.div_eq_of_lt one), if_pos one, length_singleton]
  · have more : val / 128 ≠ 0 := by omega
    have last : val / 128 / 128 = 0 := by omega
    rw [if_neg more, if_neg one, uintGroups, if_pos last, length_cons, length_singleton]

variable {before rest : List Nat}

theorem ulabTarget_eq {b1 : Nat} {displacement : Int} (atLeast : 0 ≤ displacement)
    (below : displacement < 2 ^ 16) :
    ulabTarget (before ++ (b1 :: labelBytes displacement) ++ rest) (before.length + 1) =
      some (before.length + 3 + displacement) := by
  have low : (before ++ (b1 :: labelBytes displacement) ++ rest)[before.length + 1]? =
      some (displacement % 256).toNat := by
    simp [labelBytes]
  have high : (before ++ (b1 :: labelBytes displacement) ++ rest)[before.length + 1 + 1]? =
      some (displacement / 256 % 256).toNat := by
    rw [Nat.add_assoc, append_assoc, List.getElem?_append_right (Nat.le_add_right _ _)]
    simp [labelBytes]
  rw [ulabTarget, low, high]
  simp only [bind_eq_bind, bind_some, some.injEq]
  omega

theorem slabTarget_eq {b1 : Nat} {displacement : Int} (atLeast : -2 ^ 15 ≤ displacement)
    (below : displacement < 2 ^ 15) :
    slabTarget (before ++ (b1 :: labelBytes (displacement + 0x8000)) ++ rest) (before.length + 1) =
      some (before.length + 3 + displacement) := by
  have unsigned := @ulabTarget_eq before rest b1 (displacement + 0x8000) (by omega) (by omega)
  rw [ulabTarget] at unsigned
  rw [slabTarget]
  simp only [bind_eq_bind, bind_eq_some_iff, some.injEq] at unsigned ⊢
  obtain ⟨low, isLow, high, isHigh, isTarget⟩ := unsigned
  exact ⟨low, isLow, high, isHigh, by omega⟩

/-! ## One write -/

/-- The state of the `EMIT` pass is that of the `CODE_SIZE` pass, with `spare` fewer bytes of code
info. -/
structure Follows (spare : Nat) (counted written : Emit) : Prop where
  bytecode : written.bytecode.length = counted.bytecode.length
  codeInfo : written.codeInfo.length + spare = counted.codeInfo.length
  lineOffset : written.lastSourceLineOffset = counted.lastSourceLineOffset
  line : written.lastSourceLine = counted.lastSourceLine
  curObj : written.ctCurObj = counted.ctCurObj
  curRawCode : written.ctCurRawCode = counted.ctCurRawCode

/-- One state of the `CODE_SIZE` pass comes after another one. -/
structure Extends (counted next : Emit) : Prop where
  bytecode : counted.bytecode.length ≤ next.bytecode.length
  codeInfo : counted.codeInfo.length ≤ next.codeInfo.length
  labels : ∀ label offset, counted.labelOffsets label = some offset →
    next.labelOffsets label = some offset

theorem Extends.refl (counted : Emit) : Extends counted counted :=
  ⟨le_rfl, le_rfl, fun _ _ same => same⟩

theorem Extends.trans {counted next last : Emit} (first : Extends counted next)
    (second : Extends next last) : Extends counted last :=
  ⟨first.bytecode.trans second.bytecode, first.codeInfo.trans second.codeInfo,
    fun label offset same => second.labels label offset (first.labels label offset same)⟩

theorem write_extends {counted next : Emit} {made : Write}
    (ran : write context .codeSize counted made = some next) : Extends counted next := by
  cases made with
  | labelAssign l =>
    simp only [write, labelAssign] at ran
    split_ifs at ran with inside free
    cases ran
    refine ⟨le_rfl, le_rfl, fun label offset same => ?_⟩
    by_cases isLabel : label = l
    · rw [isLabel, free] at same
      cases same
    · simpa [Function.update_of_ne isLabel] using same
  | setSourceLine line =>
    simp only [write, setSourceLine, writeCodeInfo] at ran
    split_ifs at ran
    · cases ran
      exact ⟨le_rfl, by simp, fun _ _ same => same⟩
    · cases ran
      exact .refl _
  | byteObj b =>
    cases ran
    exact ⟨by simp, le_rfl, fun _ _ same => same⟩
  | byteRawCode b =>
    cases ran
    exact ⟨by simp, le_rfl, fun _ _ same => same⟩
  | _ =>
    cases ran
    exact ⟨by simp, le_rfl, fun _ _ same => same⟩

theorem length_bytecodeOf {spare : Nat} {counted written : Emit}
    (follows : Follows spare counted written) (pass : Pass) (made : Write) :
    (bytecodeOf context pass written made).length =
      (bytecodeOf context .codeSize counted made).length := by
  cases made <;>
    simp [bytecodeOf, labelBytes, follows.bytecode, follows.curObj, follows.curRawCode]

theorem writeCodeInfo_room {emit : Emit} {bytes : List Nat} {codeInfoSize bytecodeSize : Nat}
    (room : emit.codeInfo.length + bytes.length ≤ codeInfoSize) :
    writeCodeInfo (.emit codeInfoSize bytecodeSize) emit bytes =
      some { emit with codeInfo := emit.codeInfo ++ bytes } := by
  rw [writeCodeInfo, if_pos room]

theorem writeBytecode_room {emit : Emit} {bytes : List Nat} {codeInfoSize bytecodeSize : Nat}
    (room : emit.bytecode.length + bytes.length ≤ bytecodeSize) :
    writeBytecode (.emit codeInfoSize bytecodeSize) emit bytes =
      some { emit with bytecode := emit.bytecode ++ bytes } := by
  rw [writeBytecode, if_pos room]

/-- A write that the `CODE_SIZE` pass has counted is made by the `EMIT` pass. -/
theorem Follows.write {spare codeInfoSize bytecodeSize : Nat} {counted next written : Emit}
    {made : Write} (follows : Follows spare counted written)
    (ran : write context .codeSize counted made = some next)
    (labels : ∀ label offset, next.labelOffsets label = some offset →
      written.labelOffsets label = some offset)
    (room : next.bytecode.length ≤ bytecodeSize)
    (roomInfo : next.codeInfo.length ≤ codeInfoSize + spare) :
    ∃ after, Vm.write context (.emit codeInfoSize bytecodeSize) written made = some after ∧
      Follows spare next after ∧ after.labelOffsets = written.labelOffsets ∧
      after.bytecode = written.bytecode ++
        bytecodeOf context (.emit codeInfoSize bytecodeSize) written made := by
  obtain ⟨bytecode, codeInfo, lineOffset, line, curObj, curRawCode⟩ := follows
  have same : ∀ made, (bytecodeOf context (.emit codeInfoSize bytecodeSize) written made).length =
      (bytecodeOf context .codeSize counted made).length :=
    length_bytecodeOf ⟨bytecode, codeInfo, lineOffset, line, curObj, curRawCode⟩ _
  cases made with
  | labelAssign l =>
    simp only [Vm.write, labelAssign] at ran ⊢
    split_ifs at ran with inside free
    cases ran
    have isLabel : written.labelOffsets l = some written.bytecode.length := by
      rw [bytecode]
      exact labels l _ (by simp)
    rw [if_pos inside, if_pos isLabel]
    exact ⟨written, rfl, ⟨bytecode, codeInfo, lineOffset, line, curObj, curRawCode⟩, rfl,
      by simp [bytecodeOf]⟩
  | setSourceLine sourceLine =>
    simp only [Vm.write, setSourceLine, line, lineOffset, bytecode] at ran ⊢
    by_cases later : context.config.sourceLine = true ∧ counted.lastSourceLine < sourceLine
    · rw [if_pos later] at ran ⊢
      cases ran
      simp only [length_append] at roomInfo
      rw [writeCodeInfo_room (by omega)]
      exact ⟨_, rfl, ⟨bytecode, by simp only [length_append]; omega, bytecode, rfl, curObj,
        curRawCode⟩, rfl, by simp [bytecodeOf]⟩
    · rw [if_neg later] at ran ⊢
      cases ran
      exact ⟨written, rfl, ⟨bytecode, codeInfo, lineOffset, line, curObj, curRawCode⟩, rfl,
        by simp [bytecodeOf]⟩
  | byteObj b =>
    cases ran
    simp only [length_append] at room
    rw [Vm.write, writeBytecode_room (by rw [same]; omega)]
    exact ⟨_, rfl, ⟨by simp only [length_append, same]; omega, codeInfo, lineOffset, line,
      by simp only [curObj], curRawCode⟩, rfl, rfl⟩
  | byteRawCode b =>
    cases ran
    simp only [length_append] at room
    rw [Vm.write, writeBytecode_room (by rw [same]; omega)]
    exact ⟨_, rfl, ⟨by simp only [length_append, same]; omega, codeInfo, lineOffset, line,
      curObj, by simp only [curRawCode]⟩, rfl, rfl⟩
  | _ =>
    cases ran
    simp only [length_append] at room
    rw [Vm.write, writeBytecode_room (by rw [same]; omega)]
    · exact ⟨_, rfl, ⟨by simp only [length_append, same]; omega, codeInfo, lineOffset, line,
        curObj, curRawCode⟩, rfl, rfl⟩
    all_goals simp

/-! ## All writes -/

theorem writes_extend {writes : List Write} {counted last : Emit}
    (ran : writes.foldlM (write context .codeSize) counted = some last) : Extends counted last := by
  induction writes generalizing counted with
  | nil =>
    cases ran
    exact .refl _
  | cons made writes ih =>
    rw [foldlM_cons, bind_eq_bind, bind_eq_some_iff] at ran
    obtain ⟨next, first, rest⟩ := ran
    exact (write_extends first).trans (ih rest)

theorem Follows.writes {spare codeInfoSize bytecodeSize : Nat} {writes : List Write}
    {counted last written : Emit} (follows : Follows spare counted written)
    (ran : writes.foldlM (Vm.write context .codeSize) counted = some last)
    (labels : ∀ label offset, last.labelOffsets label = some offset →
      written.labelOffsets label = some offset)
    (room : last.bytecode.length ≤ bytecodeSize)
    (roomInfo : last.codeInfo.length ≤ codeInfoSize + spare) :
    ∃ after, writes.foldlM (Vm.write context (.emit codeInfoSize bytecodeSize)) written = some after ∧
      Follows spare last after ∧ after.labelOffsets = written.labelOffsets ∧
      ∃ more, after.bytecode = written.bytecode ++ more := by
  induction writes generalizing counted written with
  | nil =>
    cases ran
    exact ⟨written, rfl, follows, rfl, [], by simp⟩
  | cons made writes ih =>
    rw [foldlM_cons, bind_eq_bind, bind_eq_some_iff] at ran
    obtain ⟨next, first, rest⟩ := ran
    have later := writes_extend rest
    obtain ⟨middle, firstRan, middleFollows, middleLabels, middleBytes⟩ :=
      @Follows.write context spare codeInfoSize bytecodeSize counted next written made follows first
        (fun label offset same => labels label offset (later.labels label offset same))
        (later.bytecode.trans room) (later.codeInfo.trans roomInfo)
    obtain ⟨after, restRan, afterFollows, afterLabels, more, afterBytes⟩ :=
      ih middleFollows rest (by rwa [middleLabels])
    refine ⟨after, ?_, afterFollows, afterLabels.trans middleLabels, ?_⟩
    · rw [foldlM_cons, firstRan]
      exact restRan
    · rw [afterBytes, middleBytes, append_assoc]
      exact ⟨_, rfl⟩

/-! ## The passes -/

/-- The offset that the `CODE_SIZE` pass has reached after some writes. -/
def offsetAfter (context : EmitContext) (before : List Write) : Option Nat := do
  let emit ← startPass context .codeSize (fun _ => none)
  let emit ← before.foldlM (write context .codeSize) emit
  some emit.bytecode.length

/-- The labels of an instruction at `start` are assigned, and as close as 16 bits reach. -/
def Reaches (labelOffsets : Nat → Option Nat) (start : Nat) : Write → Prop
  | .unsignedLabel _ label => ∃ offset, labelOffsets label = some offset ∧ start + 3 ≤ offset ∧
      offset < start + 3 + 2 ^ 16
  | .signedLabel _ label => ∃ offset, labelOffsets label = some offset ∧
      start + 3 ≤ offset + 2 ^ 15 ∧ offset < start + 3 + 2 ^ 15
  | _ => True

/-- The operand of an instruction at `start` leads to the offset of its label. -/
def Lands (labelOffsets : Nat → Option Nat) (bytecode : List Nat) (start : Nat) : Write → Prop
  | .unsignedLabel _ label => ∃ offset : Nat, labelOffsets label = some offset ∧
      ulabTarget bytecode (start + 1) = some (offset : Int)
  | .signedLabel _ label => ∃ offset : Nat, labelOffsets label = some offset ∧
      slabTarget bytecode (start + 1) = some (offset : Int)
  | _ => True

theorem lands_of_reaches {labelOffsets : Nat → Option Nat} {made : Write} {written : Emit}
    {codeInfoSize bytecodeSize : Nat} {more : List Nat} (isLabels : written.labelOffsets = labelOffsets)
    (reaches : Reaches labelOffsets written.bytecode.length made) :
    Lands labelOffsets (written.bytecode ++
      bytecodeOf context (.emit codeInfoSize bytecodeSize) written made ++ more)
      written.bytecode.length made := by
  subst isLabels
  cases made with
  | unsignedLabel b1 label =>
    obtain ⟨offset, isOffset, atLeast, below⟩ := reaches
    refine ⟨offset, isOffset, ?_⟩
    have displacement : labelDisplacement context written label =
        (offset : Int) - written.bytecode.length - 3 := by
      rw [labelDisplacement, isOffset]
      rfl
    simp only [bytecodeOf, reduceCtorEq, if_false, displacement]
    rw [ulabTarget_eq (by omega) (by omega), some_inj]
    omega
  | signedLabel b1 label =>
    obtain ⟨offset, isOffset, atLeast, below⟩ := reaches
    refine ⟨offset, isOffset, ?_⟩
    have displacement : labelDisplacement context written label =
        (offset : Int) - written.bytecode.length - 3 := by
      rw [labelDisplacement, isOffset]
      rfl
    simp only [bytecodeOf, reduceCtorEq, if_false, displacement]
    rw [slabTarget_eq (by omega) (by omega), some_inj]
    omega
  | _ => trivial

theorem le_mpAlign (offset : Nat) {alignment : Nat} (positive : 0 < alignment) :
    offset ≤ mpAlign offset alignment := by
  have whole := Nat.div_add_mod (offset + alignment - 1) alignment
  have small := Nat.mod_lt (offset + alignment - 1) positive
  rw [mpAlign, Nat.mul_comm]
  omega

theorem le_codeInfoSize (counted : Emit) : counted.codeInfo.length ≤ codeInfoSize context counted := by
  rw [codeInfoSize]
  split_ifs
  · exact le_rfl
  · refine le_mpAlign _ ?_
    rw [EmitConfig.bytesPerWord]
    split_ifs <;> omega

theorem startPass_follows {codeInfoSize bytecodeSize : Nat} {labelOffsets : Nat → Option Nat}
    {counted : Emit} (ran : startPass context .codeSize (fun _ => none) = some counted)
    (small : codeInfoSize - (headerBytes context).length < 2 ^ 14)
    (room : counted.bytecode.length ≤ bytecodeSize)
    (roomInfo : counted.codeInfo.length ≤ codeInfoSize) :
    ∃ written, startPass context (.emit codeInfoSize bytecodeSize) labelOffsets = some written ∧
      Follows (if codeInfoSize - (headerBytes context).length < 128 then 1 else 0) counted written ∧
      written.labelOffsets = labelOffsets := by
  cases ran
  have size := length_uintBytes context.config small
  simp only [length_append, sizeBytes, length_cons, length_nil] at room roomInfo
  have shorter : (sizeBytes context (.emit codeInfoSize bytecodeSize)).length +
      (if codeInfoSize - (headerBytes context).length < 128 then 1 else 0) = 2 := by
    rw [sizeBytes, size]
    split_ifs <;> rfl
  rw [startPass, bind_eq_bind, writeCodeInfo_room]
  · rw [bind_some, writeBytecode_room]
    · refine ⟨_, rfl, ⟨rfl, ?_, rfl, rfl, rfl, rfl⟩, rfl⟩
      simp only [length_append, sizeBytes, length_cons, length_nil] at shorter ⊢
      omega
    · simpa using room
  · simp only [length_append, length_nil] at shorter ⊢
    omega

/-- A scope without locals, in persistent code for a 64-bit machine. -/
def emptyScope : EmitContext where
  config := ⟨true, true, true, false, true, true⟩
  scope := ⟨0, 0, 0, 0, 0, 0, 0, 1, 1, []⟩
  maxNumLabels := 1
  ctNumObj := 0

end MultiPython.Vm
