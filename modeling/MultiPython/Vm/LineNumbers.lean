import Mathlib
import MultiPython.Vm.EmitPasses

/-!
# Source lines

The table of line numbers that the emitter writes into the code info, and the loop of the VM's
exception handler that reads it (`py/vm.c`). An entry advances by a number of bytes and then by a
number of lines, so the loop may stop inside of an entry and still have the line before it.
-/

namespace MultiPython.Vm

open List Option

/-- The loop over the table at `ip`, for the bytecode offset `bc`. A table without an end has no
result. -/
def sourceLineLoop : List Nat → Nat → Nat → Option Nat
  | [], _, _ => none
  | c :: ip, bc, sourceLine =>
    if c = 0 then some sourceLine
    else if c &&& 0x80 = 0 then
      let b := c &&& 0x1f
      let l := c >>> 5
      if b ≤ bc then sourceLineLoop ip (bc - b) (sourceLine + l) else some sourceLine
    else
      match ip with
      | [] => none
      | low :: ip =>
        let b := c &&& 0xf
        let l := ((c <<< 4) &&& 0x700) ||| low
        if b ≤ bc then sourceLineLoop ip (bc - b) (sourceLine + l) else some sourceLine

/-! ## Entries -/

/-- The bytes of one entry: a first byte that is not zero, and a second one if it says so. -/
inductive IsEntry : List Nat → Prop
  | short {c : Nat} (some_ : c ≠ 0) (small : c < 0x80) : IsEntry [c]
  | long {c low : Nat} (marked : 0x80 ≤ c) (small : c < 0x100) (lowSmall : low < 0x100) :
      IsEntry [c, low]

/-- Bytes that take the loop `b` bytes and `l` lines further, or let it stop before. -/
def Advances (table : List Nat) (b l : Nat) : Prop :=
  ∀ ip bc sourceLine, sourceLineLoop (table ++ ip) bc sourceLine =
    if bc < b then some sourceLine else sourceLineLoop ip (bc - b) (sourceLine + l)

/-- A table of entries that advances by `b` bytes and `l` lines. -/
structure IsTable (table : List Nat) (b l : Nat) : Prop where
  entries : ∃ entries : List (List Nat), table = entries.flatten ∧ ∀ entry ∈ entries, IsEntry entry
  advances : Advances table b l

section Entries

variable {table rest : List Nat} {b l moreBytes moreLines : Nat}

theorem Advances.nil : Advances [] 0 0 := by
  intro ip bc sourceLine
  simp

theorem Advances.append (first : Advances table b l) (second : Advances rest moreBytes moreLines)
    (ordered : l = 0 ∨ moreBytes = 0) :
    Advances (table ++ rest) (b + moreBytes) (l + moreLines) := by
  intro ip bc sourceLine
  rw [append_assoc, first]
  by_cases before : bc < b
  · rw [if_pos before, if_pos (by omega)]
  · rw [if_neg before, second, Nat.sub_sub, Nat.add_assoc]
    by_cases inside : bc - b < moreBytes
    · rcases ordered with rfl | rfl
      · rw [if_pos inside, if_pos (by omega), Nat.add_zero]
      · omega
    · rw [if_neg inside, if_neg (by omega)]

theorem IsTable.nil : IsTable [] 0 0 :=
  ⟨⟨[], rfl, by simp⟩, Advances.nil⟩

theorem IsTable.append (first : IsTable table b l) (second : IsTable rest moreBytes moreLines)
    (ordered : l = 0 ∨ moreBytes = 0) :
    IsTable (table ++ rest) (b + moreBytes) (l + moreLines) := by
  obtain ⟨entries, isFlat, areEntries⟩ := first.entries
  obtain ⟨more, isMore, areMore⟩ := second.entries
  refine ⟨⟨entries ++ more, by rw [flatten_append, isFlat, isMore], ?_⟩,
    first.advances.append second.advances ordered⟩
  intro entry isIn
  rcases mem_append.mp isIn with isFirst | isSecond
  · exact areEntries entry isFirst
  · exact areMore entry isSecond

theorem IsEntry.isTable (isEntry : IsEntry table) (advances : Advances table b l) :
    IsTable table b l :=
  ⟨⟨[table], by simp, by simpa using isEntry⟩, advances⟩

theorem sourceLineLoop_cons (c : Nat) (ip : List Nat) (bc sourceLine : Nat) (some_ : c ≠ 0)
    (unmarked : c &&& 0x80 = 0) : sourceLineLoop (c :: ip) bc sourceLine =
      if c &&& 0x1f ≤ bc then sourceLineLoop ip (bc - (c &&& 0x1f)) (sourceLine + c >>> 5)
      else some sourceLine := by
  cases ip with
  | nil => simp only [sourceLineLoop, if_neg some_, if_pos unmarked]
  | cons low ip => simp only [sourceLineLoop, if_neg some_, if_pos unmarked]

theorem short_eq (bSmall : b < 0x20) : b ||| l <<< 5 = 2 ^ 5 * l + b := by
  rw [Nat.shiftLeft_eq, Nat.mul_comm, Nat.lor_comm, ← Nat.two_pow_add_eq_or_of_lt bSmall]

theorem short_isTable (bSmall : b < 0x20) (lSmall : l < 4) (some_ : b ≠ 0 ∨ l ≠ 0) :
    IsTable [b ||| l <<< 5] b l := by
  rw [short_eq bSmall]
  apply (IsEntry.short (by omega) (by omega)).isTable
  intro ip bc sourceLine
  have unmarked : (2 ^ 5 * l + b) &&& 2 ^ 7 = 0 := by
    rw [Nat.and_two_pow, Nat.testBit_lt_two_pow (by omega), Bool.toNat_false, Nat.zero_mul]
  have bytes : (2 ^ 5 * l + b) &&& 0x1f = b := by
    have low := Nat.and_two_pow_sub_one_eq_mod (2 ^ 5 * l + b) 5
    rw [Nat.mul_add_mod] at low
    exact low.trans (Nat.mod_eq_of_lt bSmall)
  have lines : (2 ^ 5 * l + b) >>> 5 = l := by
    rw [Nat.shiftRight_eq_div_pow]
    omega
  rw [singleton_append, sourceLineLoop_cons _ _ _ _ (by omega) unmarked, bytes, lines]
  by_cases before : bc < b
  · rw [if_neg (by omega), if_pos before]
  · rw [if_pos (by omega), if_neg before]

theorem long_first (bSmall : b < 0x10) (lSmall : l < 0x800) :
    0x80 ||| b ||| ((l >>> 4) &&& 0x70) = 0x80 + l / 0x100 * 0x10 + b := by
  have masked : ∀ k : Fin 128, k.val &&& 0x70 = k.val / 0x10 * 0x10 := by decide
  have joined : ∀ (b : Fin 16) (h : Fin 8),
      0x80 ||| b.val ||| h.val * 0x10 = 0x80 + h.val * 0x10 + b.val := by decide
  have shifted : l >>> 4 = l / 0x10 := by rw [Nat.shiftRight_eq_div_pow]
  rw [shifted, masked ⟨l / 0x10, by omega⟩, Nat.div_div_eq_div_mul]
  exact joined ⟨b, bSmall⟩ ⟨l / 0x100, by omega⟩

theorem long_isTable (bSmall : b < 0x10) (lSmall : l < 0x800) :
    IsTable [0x80 ||| b ||| ((l >>> 4) &&& 0x70), l % 256] b l := by
  rw [long_first bSmall lSmall]
  apply (IsEntry.long (by omega) (by omega) (by omega)).isTable
  intro ip bc sourceLine
  have decoded : ∀ c : Fin 128, (0x80 + c.val) &&& 0x80 ≠ 0 ∧
      (0x80 + c.val) &&& 0xf = c.val % 0x10 ∧
      ((0x80 + c.val) <<< 4) &&& 0x700 = 2 ^ 8 * (c.val / 0x10) := by decide
  obtain ⟨marked, bytes, highLines⟩ := decoded ⟨l / 0x100 * 0x10 + b, by omega⟩
  simp only [← Nat.add_assoc] at marked bytes highLines
  have lines : 2 ^ 8 * ((l / 0x100 * 0x10 + b) / 0x10) ||| l % 256 = l := by
    rw [← Nat.two_pow_add_eq_or_of_lt (Nat.mod_lt _ (by decide))]
    omega
  have isB : (l / 0x100 * 0x10 + b) % 0x10 = b := by omega
  rw [cons_append, singleton_append, sourceLineLoop, if_neg (by omega), if_neg marked]
  simp only [bytes, highLines, lines, isB]
  by_cases before : bc < b
  · rw [if_neg (by omega), if_pos before]
  · rw [if_pos (by omega), if_neg before]

end Entries

/-! ## Tables -/

/-- What `emit_write_code_info_bytes_lines` writes are entries that advance by the bytes and lines it
is given. -/
theorem bytesLines_isTable (rounds bytesToSkip linesToSkip : Nat)
    (enough : bytesToSkip + linesToSkip ≤ rounds) :
    IsTable (bytesLines rounds bytesToSkip linesToSkip) bytesToSkip linesToSkip := by
  induction rounds generalizing bytesToSkip linesToSkip with
  | zero =>
    obtain ⟨rfl, rfl⟩ : bytesToSkip = 0 ∧ linesToSkip = 0 := by omega
    exact IsTable.nil
  | succ rounds ih =>
    simp only [bytesLines]
    split_ifs with none_ isShort isMore
    · obtain ⟨rfl, rfl⟩ := none_
      exact IsTable.nil
    · -- Bytes are left, so this entry has no lines.
      have first : IsTable [min bytesToSkip 0x1f ||| 0 <<< 5] (min bytesToSkip 0x1f) 0 :=
        short_isTable (by omega) (by omega) (by omega)
      have rest := ih (bytesToSkip - min bytesToSkip 0x1f) linesToSkip (by omega)
      have whole := first.append rest (.inl rfl)
      rwa [Nat.add_sub_cancel' (Nat.min_le_left _ _), Nat.zero_add] at whole
    · have first : IsTable [min bytesToSkip 0x1f ||| min linesToSkip 0x3 <<< 5]
          (min bytesToSkip 0x1f) (min linesToSkip 0x3) :=
        short_isTable (by omega) (by omega) (by omega)
      have rest := ih (bytesToSkip - min bytesToSkip 0x1f)
        (linesToSkip - min linesToSkip 0x3) (by omega)
      have whole := first.append rest (.inr (by omega))
      rwa [Nat.add_sub_cancel' (Nat.min_le_left _ _), Nat.add_sub_cancel' (Nat.min_le_left _ _)]
        at whole
    · have first := @long_isTable (min bytesToSkip 0xf) (min linesToSkip 0x7ff) (by omega) (by omega)
      have rest := ih (bytesToSkip - min bytesToSkip 0xf)
        (linesToSkip - min linesToSkip 0x7ff) (by omega)
      have whole := first.append rest (.inr (by omega))
      rwa [Nat.add_sub_cancel' (Nat.min_le_left _ _), Nat.add_sub_cancel' (Nat.min_le_left _ _)]
        at whole

/-! ## Statements -/

/-- A statement: the offset of its first byte of bytecode, and its line. -/
structure Statement where
  offset : Nat
  line : Nat
deriving DecidableEq

/-- The statement that begins with a write. -/
def statementAt (emit : Emit) : Write → List Statement
  | .setSourceLine sourceLine => [⟨emit.bytecode.length, sourceLine⟩]
  | _ => []

/-- The statements that begin in a run of writes. -/
def statements (context : EmitContext) (pass : Pass) (emit : Emit) : List Write → List Statement
  | [] => []
  | made :: writes =>
    statementAt emit made ++
      (write context pass emit made).elim [] fun next => statements context pass next writes

/-- The line of the last statement that starts at or before an offset, or the first line if there is
none. -/
def lineOfLast (statements : List Statement) (offset : Nat) : Nat :=
  statements.foldl (fun line s => if s.offset ≤ offset then s.line else line) 1

/-- The greatest line of the statements that start at or before an offset. -/
def greatestLine (statements : List Statement) (offset : Nat) : Nat :=
  statements.foldl (fun line s => if s.offset ≤ offset then max line s.line else line) 1

@[simp] theorem greatestLine_append_singleton (seen : List Statement) (s : Statement)
    (offset : Nat) : greatestLine (seen ++ [s]) offset =
      if s.offset ≤ offset then max (greatestLine seen offset) s.line
      else greatestLine seen offset := by
  simp [greatestLine]

theorem greatestLine_eq {statements : List Statement} (fromOne : ∀ s ∈ statements, 1 ≤ s.line)
    (increasing : statements.Pairwise fun s later => s.line ≤ later.line) (offset : Nat) :
    greatestLine statements offset = lineOfLast statements offset := by
  have general : ∀ line, (∀ s ∈ statements, line ≤ s.line) →
      statements.foldl (fun line s => if s.offset ≤ offset then max line s.line else line) line =
        statements.foldl (fun line s => if s.offset ≤ offset then s.line else line) line := by
    clear fromOne
    induction statements with
    | nil => exact fun _ _ => rfl
    | cons s statements ih =>
      intro line below
      obtain ⟨first, rest⟩ := pairwise_cons.mp increasing
      rw [foldl_cons, foldl_cons, max_eq_right (below s (by simp))]
      apply ih rest
      intro later isLater
      split_ifs
      · exact first later isLater
      · exact below later (by simp [isLater])
  exact general 1 fromOne

/-- What the table tells so far: behind the last entry the loop goes on with the last line, and before
it the loop has the greatest line that has started. -/
structure Recorded (start : List Nat) (emit : Emit) (seen : List Statement) : Prop where
  table : ∃ entries : List (List Nat), emit.codeInfo = start ++ entries.flatten ∧
    (∀ entry ∈ entries, IsEntry entry) ∧
    ∀ ip offset, sourceLineLoop (entries.flatten ++ ip) offset 1 =
      if offset < emit.lastSourceLineOffset then some (greatestLine seen offset)
      else sourceLineLoop ip (offset - emit.lastSourceLineOffset) emit.lastSourceLine
  written : emit.lastSourceLineOffset ≤ emit.bytecode.length
  later : ∀ offset, emit.lastSourceLineOffset ≤ offset →
    greatestLine seen offset = emit.lastSourceLine

section Runs

variable {context : EmitContext} {pass : Pass} {emit next : Emit} {start : List Nat}
  {seen : List Statement}

theorem writeBytecode_other {bytes : List Nat} (ran : writeBytecode pass emit bytes = some next) :
    next = { emit with bytecode := emit.bytecode ++ bytes } := by
  cases pass with
  | codeSize =>
    cases ran
    rfl
  | emit codeInfoSize bytecodeSize =>
    simp only [writeBytecode] at ran
    split_ifs at ran
    cases ran
    rfl

theorem writeCodeInfo_other {bytes : List Nat} (ran : writeCodeInfo pass emit bytes = some next) :
    next = { emit with codeInfo := emit.codeInfo ++ bytes } := by
  cases pass with
  | codeSize =>
    cases ran
    rfl
  | emit codeInfoSize bytecodeSize =>
    simp only [writeCodeInfo] at ran
    split_ifs at ran
    cases ran
    rfl

theorem labelAssign_other {l : Nat} (ran : labelAssign context pass emit l = some next) :
    ∃ labelOffsets, next = { emit with labelOffsets := labelOffsets } := by
  cases pass with
  | codeSize =>
    simp only [labelAssign] at ran
    split_ifs at ran
    cases ran
    exact ⟨_, rfl⟩
  | emit codeInfoSize bytecodeSize =>
    simp only [labelAssign] at ran
    split_ifs at ran
    cases ran
    exact ⟨_, rfl⟩

theorem write_other {made : Write} (other : statementAt emit made = [])
    (ran : write context pass emit made = some next) :
    next.codeInfo = emit.codeInfo ∧ next.lastSourceLineOffset = emit.lastSourceLineOffset ∧
      next.lastSourceLine = emit.lastSourceLine ∧ emit.bytecode.length ≤ next.bytecode.length := by
  cases made with
  | labelAssign l =>
    obtain ⟨labelOffsets, rfl⟩ := labelAssign_other ran
    exact ⟨rfl, rfl, rfl, le_rfl⟩
  | setSourceLine sourceLine => cases other
  | byteObj b =>
    rw [write, bind_eq_bind, bind_eq_some_iff] at ran
    obtain ⟨middle, isMiddle, isNext⟩ := ran
    cases isNext
    rw [writeBytecode_other isMiddle]
    exact ⟨rfl, rfl, rfl, by simp⟩
  | byteRawCode b =>
    rw [write, bind_eq_bind, bind_eq_some_iff] at ran
    obtain ⟨middle, isMiddle, isNext⟩ := ran
    cases isNext
    rw [writeBytecode_other isMiddle]
    exact ⟨rfl, rfl, rfl, by simp⟩
  | _ =>
    rw [writeBytecode_other ran]
    exact ⟨rfl, rfl, rfl, by simp⟩

theorem Recorded.known {sourceLine : Nat} (recorded : Recorded start emit seen)
    (known : sourceLine ≤ emit.lastSourceLine) :
    Recorded start emit (seen ++ [⟨emit.bytecode.length, sourceLine⟩]) := by
  obtain ⟨⟨entries, isInfo, areEntries, loop⟩, written, later⟩ := recorded
  refine ⟨⟨entries, isInfo, areEntries, ?_⟩, written, ?_⟩
  · intro ip offset
    rw [loop]
    by_cases before : offset < emit.lastSourceLineOffset
    · have notStarted : ¬ emit.bytecode.length ≤ offset := by omega
      rw [if_pos before, if_pos before, greatestLine_append_singleton, if_neg notStarted]
    · rw [if_neg before, if_neg before]
  · intro offset isLater
    rw [greatestLine_append_singleton, later offset isLater, max_eq_left known, ite_self]

/-- A greater source line is an entry for the bytes since the last one. -/
theorem Recorded.entry {sourceLine : Nat} (recorded : Recorded start emit seen)
    (greater : emit.lastSourceLine < sourceLine) (labelOffsets : Nat → Option Nat) :
    Recorded start ⟨emit.bytecode.length, sourceLine, labelOffsets, emit.codeInfo ++
        bytesLines (emit.bytecode.length - emit.lastSourceLineOffset +
            (sourceLine - emit.lastSourceLine))
          (emit.bytecode.length - emit.lastSourceLineOffset) (sourceLine - emit.lastSourceLine),
        emit.bytecode, emit.ctCurObj, emit.ctCurRawCode⟩
      (seen ++ [⟨emit.bytecode.length, sourceLine⟩]) := by
  obtain ⟨⟨entries, isInfo, areEntries, loop⟩, written, later⟩ := recorded
  obtain ⟨⟨more, isMore, areMore⟩, advances⟩ := bytesLines_isTable _ _ _ (le_refl
    (emit.bytecode.length - emit.lastSourceLineOffset + (sourceLine - emit.lastSourceLine)))
  refine ⟨⟨entries ++ more, ?_, ?_, ?_⟩, le_rfl, ?_⟩
  · rw [isInfo, isMore, flatten_append, append_assoc]
  · intro entry isIn
    rcases mem_append.mp isIn with isOld | isNew
    · exact areEntries entry isOld
    · exact areMore entry isNew
  · intro ip offset
    simp only
    rw [flatten_append, append_assoc, loop, ← isMore, advances,
      greatestLine_append_singleton]
    by_cases before : offset < emit.lastSourceLineOffset
    · have notStarted : ¬ emit.bytecode.length ≤ offset := by omega
      rw [if_pos before, if_pos (by omega), if_neg notStarted]
    · rw [if_neg before]
      by_cases between : offset < emit.bytecode.length
      · have notStarted : ¬ emit.bytecode.length ≤ offset := by omega
        rw [if_pos (by omega), if_pos between, if_neg notStarted, later offset (by omega)]
      · rw [if_neg (by omega), if_neg between, Nat.add_sub_cancel' greater.le]
        congr 1
        omega
  · intro offset isLater
    simp only at isLater ⊢
    rw [greatestLine_append_singleton, if_pos isLater, later offset (by omega),
      max_eq_right greater.le]

theorem setSourceLine_recorded {sourceLine : Nat} (stored : context.config.sourceLine = true)
    (recorded : Recorded start emit seen)
    (ran : setSourceLine context pass emit sourceLine = some next) :
    Recorded start next (seen ++ [⟨emit.bytecode.length, sourceLine⟩]) := by
  rw [setSourceLine] at ran
  by_cases greater : emit.lastSourceLine < sourceLine
  · rw [if_pos ⟨stored, greater⟩, bind_eq_bind, bind_eq_some_iff] at ran
    obtain ⟨middle, isMiddle, isNext⟩ := ran
    rw [writeCodeInfo_other isMiddle] at isNext
    cases isNext
    exact recorded.entry greater emit.labelOffsets
  · rw [if_neg (by simp [greater])] at ran
    cases ran
    exact recorded.known (by omega)

/-- A write keeps the table right. -/
theorem write_recorded {made : Write} (stored : context.config.sourceLine = true)
    (recorded : Recorded start emit seen) (ran : write context pass emit made = some next) :
    Recorded start next (seen ++ statementAt emit made) := by
  by_cases other : statementAt emit made = []
  · obtain ⟨⟨entries, isInfo, rest⟩, written, later⟩ := recorded
    obtain ⟨sameInfo, sameOffset, sameLine, grows⟩ := write_other other ran
    rw [other, append_nil]
    refine ⟨⟨entries, by rw [sameInfo, isInfo], ?_⟩, by omega, ?_⟩
    · rwa [sameOffset, sameLine]
    · rwa [sameOffset, sameLine]
  · cases made with
    | setSourceLine sourceLine => exact setSourceLine_recorded stored recorded ran
    | _ => exact absurd rfl other

/-- A run of writes keeps the table right. -/
theorem writes_recorded {writes : List Write} {last : Emit}
    (stored : context.config.sourceLine = true) (recorded : Recorded start emit seen)
    (ran : writes.foldlM (write context pass) emit = some last) :
    Recorded start last (seen ++ statements context pass emit writes) := by
  induction writes generalizing emit seen with
  | nil =>
    cases ran
    rwa [statements, append_nil]
  | cons made writes ih =>
    rw [foldlM_cons, bind_eq_bind, bind_eq_some_iff] at ran
    obtain ⟨next, isNext, rest⟩ := ran
    have step := ih (write_recorded stored recorded isNext) rest
    rwa [statements, isNext, elim_some, ← append_assoc]

end Runs

/-- In the code info of a scope the table follows what `mp_emit_bc_start_pass` has written, as entries
whose first bytes are not zero and a byte that is. The loop at the table finds for every offset the
line of the last statement that starts at or before it. -/
theorem sourceLineLoop_runPass (context : EmitContext) (pass : Pass)
    (labelOffsets : Nat → Option Nat) (writes : List Write) (started written : Emit)
    (stored : context.config.sourceLine = true)
    (starts : startPass context pass labelOffsets = some started)
    (ran : runPass context pass labelOffsets writes = some written)
    (fromOne : ∀ s ∈ statements context pass started writes, 1 ≤ s.line)
    (increasing : (statements context pass started writes).Pairwise fun s later =>
      s.line ≤ later.line) :
    ∃ entries : List (List Nat), written.codeInfo = started.codeInfo ++ entries.flatten ++ [0] ∧
      (∀ entry ∈ entries, IsEntry entry) ∧
      ∀ offset rest, sourceLineLoop (entries.flatten ++ 0 :: rest) offset 1 =
        some (lineOfLast (statements context pass started writes) offset) := by
  rw [runPass, starts, bind_eq_bind, bind_some, bind_eq_some_iff] at ran
  obtain ⟨last, wrote, ended⟩ := ran
  rw [endPass, bind_eq_bind, bind_eq_some_iff] at ended
  obtain ⟨closed, isClosed, isWritten⟩ := ended
  split_ifs at isWritten
  cases isWritten
  rw [writeCodeInfo_other isClosed]
  have begins : started.lastSourceLineOffset = 0 ∧ started.lastSourceLine = 1 := by
    rw [startPass, bind_eq_bind, bind_eq_some_iff] at starts
    obtain ⟨middle, isMiddle, isStarted⟩ := starts
    rw [writeBytecode_other isStarted, writeCodeInfo_other isMiddle]
    exact ⟨rfl, rfl⟩
  have nothing : Recorded started.codeInfo started [] := by
    refine ⟨⟨[], by simp, by simp, ?_⟩, by omega, ?_⟩
    · intro ip offset
      rw [begins.1, begins.2, if_neg (by omega)]
      rfl
    · intro offset _
      rw [begins.2]
      rfl
  obtain ⟨⟨entries, isInfo, areEntries, loop⟩, -, later⟩ := writes_recorded stored nothing wrote
  rw [nil_append] at loop later
  refine ⟨entries, by rw [isInfo], areEntries, ?_⟩
  intro offset rest
  rw [← greatestLine_eq fromOne increasing, loop]
  by_cases before : offset < last.lastSourceLineOffset
  · rw [if_pos before]
  · rw [if_neg before, later offset (by omega)]
    cases rest with
    | nil => simp [sourceLineLoop]
    | cons low rest => simp [sourceLineLoop]

/-- Statements in the lines 2 and 1000, the second one 17 bytes behind the first one. -/
theorem sourceLineLoop_runPass_gap :
    ∃ started written, startPass emptyScope .codeSize (fun _ => none) = some started ∧
      runPass emptyScope .codeSize (fun _ => none)
        (.setSourceLine 2 :: List.replicate 17 (.byte 0) ++ [.setSourceLine 1000, .byte 0]) =
          some written ∧
      ∃ entries : List (List Nat), written.codeInfo = started.codeInfo ++ entries.flatten ++ [0] ∧
        (∀ entry ∈ entries, IsEntry entry) ∧
        ∀ offset rest, sourceLineLoop (entries.flatten ++ 0 :: rest) offset 1 =
          some (lineOfLast [⟨1, 2⟩, ⟨18, 1000⟩] offset) :=
  ⟨_, _, rfl, rfl, sourceLineLoop_runPass emptyScope .codeSize (fun _ => none)
    (.setSourceLine 2 :: List.replicate 17 (.byte 0) ++ [.setSourceLine 1000, .byte 0]) _ _ rfl rfl rfl
    (by decide) (by decide)⟩

end MultiPython.Vm
