import Mathlib

/-!
# The bytecode emitter

`py/emitbc.c`: the functions that write code info and bytecode, the `mp_emit_bc` functions that the
compiler calls, and the `CODE_SIZE` and `EMIT` passes over the same calls. An offset is the length
of what has been written; before the `EMIT` pass the bytes themselves are discarded, but the same
number is counted. A pass returns `none` if one of its asserts fails.
-/

namespace MultiPython.Vm

/-- The options of the emitter: `MICROPY_PERSISTENT_CODE`,
`MICROPY_OPT_CACHE_MAP_LOOKUP_IN_BYTECODE_DYNAMIC`, whether line numbers are stored
(`MICROPY_ENABLE_SOURCE_LINE` below `-O3`), `MICROPY_DEBUG_VM_STACK_OVERFLOW`, `MICROPY_PY_BUILTINS_SET`,
and whether a word has 64 bits or 32. -/
structure EmitConfig where
  persistentCode : Bool
  cacheMapLookup : Bool
  sourceLine : Bool
  debugVmStackOverflow : Bool
  builtinsSet : Bool
  wide : Bool
deriving DecidableEq, Repr

def EmitConfig.bytesPerWord (config : EmitConfig) : Nat := if config.wide then 8 else 4

def EmitConfig.bytesForInt (config : EmitConfig) : Nat := (config.bytesPerWord * 8 + 6) / 7

/-- `MP_OBJ_ITER_BUF_NSLOTS`. -/
def objIterBufNslots : Nat := 4

/-- What the emitter reads of a `scope_t`; `cells` are the `local_num` of the identifiers that are
cells. -/
structure Scope where
  numLocals : Nat
  stackSize : Nat
  excStackSize : Nat
  scopeFlags : Nat
  numPosArgs : Nat
  numKwonlyArgs : Nat
  numDefPosArgs : Nat
  simpleName : Nat
  sourceFile : Nat
  cells : List Nat

/-- `emit_t`, as far as it changes within a pass. -/
structure Emit where
  lastSourceLineOffset : Nat
  lastSourceLine : Nat
  labelOffsets : Nat → Option Nat
  codeInfo : List Nat
  bytecode : List Nat
  ctCurObj : Nat
  ctCurRawCode : Nat

/-- `pass_kind_t` for the two last passes, with the sizes that the `EMIT` pass has been given. -/
inductive Pass where
  | codeSize
  | emit (codeInfoSize bytecodeSize : Nat)
deriving DecidableEq

/-- `MP_ALIGN`, for an alignment that is a power of two. -/
def mpAlign (offset alignment : Nat) : Nat := (offset + alignment - 1) / alignment * alignment

/-! ## Encodings -/

/-- The loop of `emit_write_uint`. -/
def uintGroups : Nat → Nat → List Nat → List Nat
  | 0, _, p => p
  | room + 1, val, p =>
    if val / 128 = 0 then val % 128 :: p else uintGroups room (val / 128) (val % 128 :: p)

/-- Mark all bytes but the last one as having a successor. -/
def markGroups : List Nat → List Nat
  | [] => []
  | [last] => [last]
  | group :: groups => (group + 128) :: markGroups groups

/-- What `emit_write_uint` writes. -/
def uintBytes (config : EmitConfig) (val : Nat) : List Nat :=
  markGroups (uintGroups config.bytesForInt val [])

/-- The loop of `emit_write_bytecode_byte_int`, with the byte that it may add for the sign. -/
def intGroups : Nat → Int → List Nat → List Nat
  | 0, _, p => p
  | room + 1, num, p =>
    let low := (num % 128).toNat
    let num := num / 128
    if num ≠ 0 ∧ num ≠ -1 then intGroups room num (low :: p)
    else if num = -1 ∧ low < 64 then 127 :: low :: p
    else if num = 0 ∧ 64 ≤ low then 0 :: low :: p
    else low :: p

/-- What `emit_write_bytecode_byte_int` writes after the first byte. -/
def intBytes (config : EmitConfig) (num : Int) : List Nat :=
  markGroups (intGroups config.bytesForInt num [])

/-- What is written for an interned string. -/
def qstrBytes (config : EmitConfig) (qst : Nat) : List Nat :=
  if config.persistentCode then [qst % 256, qst / 256 % 256] else uintBytes config qst

/-- `emit_write_code_info_bytes_lines`, with a bound on the number of rounds. -/
def bytesLines : Nat → Nat → Nat → List Nat
  | 0, _, _ => []
  | rounds + 1, bytesToSkip, linesToSkip =>
    if bytesToSkip = 0 ∧ linesToSkip = 0 then []
    else if linesToSkip ≤ 6 ∨ 0xf < bytesToSkip then
      let b := min bytesToSkip 0x1f
      let l := if b < bytesToSkip then 0 else min linesToSkip 0x3
      (b ||| l <<< 5) :: bytesLines rounds (bytesToSkip - b) (linesToSkip - l)
    else
      let b := min bytesToSkip 0xf
      let l := min linesToSkip 0x7ff
      (0x80 ||| b ||| ((l >>> 4) &&& 0x70)) :: l % 256 ::
        bytesLines rounds (bytesToSkip - b) (linesToSkip - l)

/-- The two bytes of a label. -/
def labelBytes (bytecodeOffset : Int) : List Nat :=
  [(bytecodeOffset % 256).toNat, (bytecodeOffset / 256 % 256).toNat]

/-! ## Writing -/

/-- What the `mp_emit_bc` functions do to the code: the calls of the `emit_write_bytecode` functions,
the assignment of a label, and the entry for a source line. -/
inductive Write where
  | byte (b1 : Nat)
  | byteByte (b1 b2 : Nat)
  | byteInt (b1 : Nat) (num : Int)
  | byteUint (b val : Nat)
  | byteQstr (b qst : Nat)
  | byteObj (b : Nat)
  | byteRawCode (b : Nat)
  | unsignedLabel (b1 label : Nat)
  | signedLabel (b1 label : Nat)
  | labelAssign (l : Nat)
  | setSourceLine (sourceLine : Nat)
deriving DecidableEq

/-- What is the same in all passes over a scope. -/
structure EmitContext where
  config : EmitConfig
  scope : Scope
  maxNumLabels : Nat
  /-- `ct_num_obj`, as the pass before has left it. -/
  ctNumObj : Nat

variable (context : EmitContext)

/-- `emit_get_cur_to_write_code_info` and the writes to what it returns. -/
def writeCodeInfo (pass : Pass) (emit : Emit) (bytes : List Nat) : Option Emit :=
  match pass with
  | .codeSize => some { emit with codeInfo := emit.codeInfo ++ bytes }
  | .emit codeInfoSize _ =>
    if emit.codeInfo.length + bytes.length ≤ codeInfoSize then
      some { emit with codeInfo := emit.codeInfo ++ bytes }
    else none

/-- `emit_get_cur_to_write_bytecode` and the writes to what it returns. -/
def writeBytecode (pass : Pass) (emit : Emit) (bytes : List Nat) : Option Emit :=
  match pass with
  | .codeSize => some { emit with bytecode := emit.bytecode ++ bytes }
  | .emit _ bytecodeSize =>
    if emit.bytecode.length + bytes.length ≤ bytecodeSize then
      some { emit with bytecode := emit.bytecode ++ bytes }
    else none

/-- A byte, and a pointer in the bytecode itself, which is aligned. -/
def pointerBytes (offset b : Nat) : List Nat :=
  let word := context.config.bytesPerWord
  b :: List.replicate (mpAlign (offset + 1) word - (offset + 1) + word) 0

/-- The displacement that a label is written with. -/
def labelDisplacement (emit : Emit) (label : Nat) : Int :=
  (((emit.labelOffsets label).getD (2 ^ (8 * context.config.bytesPerWord) - 1) : Nat) : Int) -
    emit.bytecode.length - 3

/-- The bytes that a write appends to the bytecode. -/
def bytecodeOf (pass : Pass) (emit : Emit) : Write → List Nat
  | .byte b1 => [b1]
  | .byteByte b1 b2 => [b1, b2]
  | .byteInt b1 num => b1 :: intBytes context.config num
  | .byteUint b val => b :: uintBytes context.config val
  | .byteQstr b qst => b :: qstrBytes context.config qst
  | .byteObj b =>
    if context.config.persistentCode then
      b :: uintBytes context.config
        (context.scope.numPosArgs + context.scope.numKwonlyArgs + emit.ctCurObj)
    else pointerBytes context emit.bytecode.length b
  | .byteRawCode b =>
    if context.config.persistentCode then
      b :: uintBytes context.config
        (context.scope.numPosArgs + context.scope.numKwonlyArgs + context.ctNumObj +
          emit.ctCurRawCode)
    else pointerBytes context emit.bytecode.length b
  | .unsignedLabel b1 label =>
    b1 :: labelBytes (if pass = .codeSize then 0 else labelDisplacement context emit label)
  | .signedLabel b1 label =>
    b1 :: labelBytes (if pass = .codeSize then 0 else labelDisplacement context emit label + 0x8000)
  | .labelAssign _ | .setSourceLine _ => []

/-- `mp_emit_bc_label_assign`. -/
def labelAssign (pass : Pass) (emit : Emit) (l : Nat) : Option Emit :=
  if l < context.maxNumLabels then
    match pass with
    | .codeSize =>
      if emit.labelOffsets l = none then
        some { emit with
          labelOffsets := Function.update emit.labelOffsets l (some emit.bytecode.length) }
      else none
    | .emit .. => if emit.labelOffsets l = some emit.bytecode.length then some emit else none
  else none

/-- `mp_emit_bc_set_source_line`. -/
def setSourceLine (pass : Pass) (emit : Emit) (sourceLine : Nat) : Option Emit :=
  if context.config.sourceLine ∧ emit.lastSourceLine < sourceLine then do
    let bytesToSkip := emit.bytecode.length - emit.lastSourceLineOffset
    let linesToSkip := sourceLine - emit.lastSourceLine
    let emit ← writeCodeInfo pass emit (bytesLines (bytesToSkip + linesToSkip) bytesToSkip linesToSkip)
    some { emit with
      lastSourceLineOffset := emit.bytecode.length
      lastSourceLine := sourceLine }
  else some emit

/-- One write. -/
def write (pass : Pass) (emit : Emit) (made : Write) : Option Emit :=
  match made with
  | .labelAssign l => labelAssign context pass emit l
  | .setSourceLine sourceLine => setSourceLine context pass emit sourceLine
  | .byteObj _ => do
      let emit ← writeBytecode pass emit (bytecodeOf context pass emit made)
      some { emit with ctCurObj := emit.ctCurObj + 1 }
  | .byteRawCode _ => do
      let emit ← writeBytecode pass emit (bytecodeOf context pass emit made)
      some { emit with ctCurRawCode := emit.ctCurRawCode + 1 }
  | _ => writeBytecode pass emit (bytecodeOf context pass emit made)

/-! ## The functions that the compiler calls -/

/-- A call of an `mp_emit_bc` function. The kinds are the numbers that `emit.h` gives them; a call
that writes one fixed opcode is `opcode`. -/
inductive EmitCall where
  | setSourceLine (sourceLine : Nat)
  | labelAssign (l : Nat)
  | import_ (qst kind : Nat)
  | loadConstTok (constant : Option Nat)
  | loadConstSmallInt (arg : Int)
  | loadConstStr (qst : Nat)
  | loadConstObj
  | opcode (b1 : Nat)
  | loadLocal (localNum kind : Nat)
  | loadGlobal (qst kind : Nat)
  | loadMethod (qst : Nat) (isSuper : Bool)
  | subscr (kind : Nat)
  | attr (qst kind : Nat)
  | storeLocal (localNum kind : Nat)
  | storeGlobal (qst kind : Nat)
  | deleteLocal (localNum kind : Nat)
  | deleteGlobal (qst kind : Nat)
  | jump (label : Nat)
  | popJumpIf (cond : Bool) (label : Nat)
  | jumpIfOrPop (cond : Bool) (label : Nat)
  | unwindJump (label exceptDepth : Nat)
  | setupBlock (label kind : Nat)
  | withCleanup (label : Nat)
  | getIter (useStack : Bool)
  | forIter (label : Nat)
  | popExceptJump (label : Nat)
  | unaryOp (op : Nat)
  | binaryOp (op : Nat) (invert : Bool)
  | build (nArgs kind : Nat)
  | storeComp (isList isDict : Bool) (collectionStackIndex : Nat)
  | unpackSequence (nArgs : Nat)
  | unpackEx (nLeft nRight : Nat)
  | makeFunction (defaults : Bool)
  | makeClosure (nClosedOver : Nat) (defaults : Bool)
  | callFunction (nPositional nKeyword : Nat) (starFlags : Bool)
  | callMethod (nPositional nKeyword : Nat) (starFlags : Bool)
  | raiseVarargs (nArgs : Nat)

/-- `MP_EMIT_BREAK_FROM_FOR`. -/
def emitBreakFromFor : Nat := 0x8000

/-- `emit_bc_call_function_method_helper`. -/
def callFunctionMethodHelper (bytecodeBase nPositional nKeyword : Nat) (starFlags : Bool) : List Write :=
  [.byteUint (if starFlags then bytecodeBase + 1 else bytecodeBase) (nKeyword <<< 8 ||| nPositional)]

/-- The cache byte of an operation. -/
def cacheByte (config : EmitConfig) : List Write := if config.cacheMapLookup then [.byte 0] else []

/-- What a call writes. -/
def EmitCall.writes (config : EmitConfig) : EmitCall → List Write
  | .setSourceLine sourceLine => [.setSourceLine sourceLine]
  | .labelAssign l => [.labelAssign l]
  | .import_ qst kind => if kind = 2 then [.byte 0x6a] else [.byteQstr (0x68 + kind) qst]
  | .loadConstTok (some b1) => [.byte b1]
  | .loadConstTok none | .loadConstObj => [.byteObj 0x17]
  | .loadConstSmallInt arg =>
    if -16 ≤ arg ∧ arg ≤ 47 then [.byte (0x70 + (16 + arg).toNat)] else [.byteInt 0x14 arg]
  | .loadConstStr qst => [.byteQstr 0x16 qst]
  | .opcode b1 => [.byte b1]
  | .loadLocal localNum kind =>
    if kind = 0 ∧ localNum ≤ 15 then [.byte (0xb0 + localNum)] else [.byteUint (0x19 + kind) localNum]
  | .loadGlobal qst kind => .byteQstr (0x1b + kind) qst :: cacheByte config
  | .loadMethod qst isSuper => [.byteQstr (if isSuper then 0x1f else 0x1e) qst]
  | .subscr kind =>
    if kind = 0 then [.byte 0x21]
    else (if kind = 2 then [.byte 0x18, .byte 0x34] else []) ++ [.byte 0x27]
  | .attr qst kind =>
    (if kind = 0 then [.byteQstr 0x1d qst]
    else (if kind = 2 then [.byte 0x18, .byte 0x33] else []) ++ [.byteQstr 0x26 qst]) ++
      cacheByte config
  | .storeLocal localNum kind =>
    if kind = 0 ∧ localNum ≤ 15 then [.byte (0xc0 + localNum)] else [.byteUint (0x22 + kind) localNum]
  | .storeGlobal qst kind => [.byteQstr (0x24 + kind) qst]
  | .deleteLocal localNum kind => [.byteUint (0x28 + kind) localNum]
  | .deleteGlobal qst kind => [.byteQstr (0x2a + kind) qst]
  | .jump label => [.signedLabel 0x35 label]
  | .popJumpIf cond label => [.signedLabel (if cond then 0x36 else 0x37) label]
  | .jumpIfOrPop cond label => [.signedLabel (if cond then 0x38 else 0x39) label]
  | .unwindJump label exceptDepth =>
    let fromFor := label &&& emitBreakFromFor ≠ 0
    let target := label - (label &&& emitBreakFromFor)
    if exceptDepth = 0 then
      (if fromFor then List.replicate objIterBufNslots (.byte 0x32) else []) ++
        [.signedLabel 0x35 target]
    else
      [.signedLabel 0x46 target, .byte ((if fromFor then 0x80 else 0) ||| exceptDepth)]
  | .setupBlock label kind => [.unsignedLabel (0x3d + kind) label]
  | .withCleanup label => [.byte 0x11, .labelAssign label, .byte 0x3e]
  | .getIter useStack => [.byte (if useStack then 0x47 else 0x42)]
  | .forIter label => [.unsignedLabel 0x43 label]
  | .popExceptJump label => [.unsignedLabel 0x44 label]
  | .unaryOp op => [.byte (0xd0 + op)]
  | .binaryOp op invert => .byte (0xd7 + op) :: if invert then [.byte (0xd0 + 3)] else []
  | .build nArgs kind => [.byteUint (0x50 + kind) nArgs]
  | .storeComp isList isDict collectionStackIndex =>
    if isList then [.byteUint 0x57 (collectionStackIndex <<< 2)]
    else if !config.builtinsSet || isDict then
      [.byteUint 0x57 ((collectionStackIndex + 1) <<< 2 ||| 1)]
    else [.byteUint 0x57 (collectionStackIndex <<< 2 ||| 2)]
  | .unpackSequence nArgs => [.byteUint 0x59 nArgs]
  | .unpackEx nLeft nRight => [.byteUint 0x5a (nLeft ||| nRight <<< 8)]
  | .makeFunction defaults => [.byteRawCode (if defaults then 0x61 else 0x60)]
  | .makeClosure nClosedOver defaults =>
    [.byteRawCode (if defaults then 0x63 else 0x62), .byte (nClosedOver % 256)]
  | .callFunction nPositional nKeyword starFlags =>
    callFunctionMethodHelper 0x64 nPositional nKeyword starFlags
  | .callMethod nPositional nKeyword starFlags =>
    callFunctionMethodHelper 0x66 nPositional nKeyword starFlags
  | .raiseVarargs nArgs => [.byteByte 0x5c nArgs]

/-- What all the calls for a scope write. -/
def writesOf (config : EmitConfig) (calls : List EmitCall) : List Write :=
  calls.flatMap (EmitCall.writes config)

/-! ## Passes -/

/-- The code info before its size. -/
def headerBytes : List Nat :=
  let locals := context.scope.numLocals + context.scope.stackSize
  let nState := (if locals = 0 then 1 else locals) +
    if context.config.debugVmStackOverflow then 1 else 0
  uintBytes context.config nState ++ uintBytes context.config context.scope.excStackSize ++
    [context.scope.scopeFlags % 256, context.scope.numPosArgs % 256,
      context.scope.numKwonlyArgs % 256, context.scope.numDefPosArgs % 256]

/-- The size of the rest of the code info, for which the `CODE_SIZE` pass reserves two bytes. -/
def sizeBytes (pass : Pass) : List Nat :=
  match pass with
  | .codeSize => [0, 0]
  | .emit codeInfoSize _ => uintBytes context.config (codeInfoSize - (headerBytes context).length)

/-- `mp_emit_bc_start_pass`. -/
def startPass (pass : Pass) (labelOffsets : Nat → Option Nat) : Option Emit := do
  let emit : Emit := ⟨0, 1, labelOffsets, [], [], 0, 0⟩
  let emit ← writeCodeInfo pass emit
    (headerBytes context ++ sizeBytes context pass ++ qstrBytes context.config context.scope.simpleName ++
      qstrBytes context.config context.scope.sourceFile)
  writeBytecode pass emit (context.scope.cells ++ [255])

/-- `mp_emit_bc_end_pass`, up to what it does with the sizes. -/
def endPass (pass : Pass) (emit : Emit) : Option Emit := do
  let emit ← writeCodeInfo pass emit [0]
  if context.config.persistentCode = true ∧ context.ctNumObj ≠ emit.ctCurObj then none else some emit

/-- A pass over the writes of a scope. -/
def runPass (pass : Pass) (labelOffsets : Nat → Option Nat) (writes : List Write) : Option Emit := do
  let emit ← startPass context pass labelOffsets
  let emit ← writes.foldlM (write context pass) emit
  endPass context pass emit

/-- The `CODE_SIZE` pass. -/
def codeSizePass (calls : List EmitCall) : Option Emit :=
  runPass context .codeSize (fun _ => none) (writesOf context.config calls)

/-- `code_info_size`, as the `CODE_SIZE` pass leaves it. -/
def codeInfoSize (counted : Emit) : Nat :=
  if context.config.persistentCode then counted.codeInfo.length
  else mpAlign counted.codeInfo.length context.config.bytesPerWord

/-- The `EMIT` pass, with the sizes and the labels of the `CODE_SIZE` pass. -/
def emitPass (counted : Emit) (calls : List EmitCall) : Option Emit :=
  runPass context (.emit (codeInfoSize context counted) counted.bytecode.length) counted.labelOffsets
    (writesOf context.config calls)

/-! ## Decoding -/

/-- `DECODE_ULABEL` and the jump from after it. -/
def ulabTarget (bytecode : List Nat) (ip : Nat) : Option Int := do
  let low ← bytecode[ip]?
  let high ← bytecode[ip + 1]?
  some ((ip + 2 : Int) + (low + high * 256 : Nat))

/-- `DECODE_SLABEL` and the jump from after it. -/
def slabTarget (bytecode : List Nat) (ip : Nat) : Option Int := do
  let low ← bytecode[ip]?
  let high ← bytecode[ip + 1]?
  some ((ip + 2 : Int) + ((low + high * 256 : Nat) - 0x8000))

end MultiPython.Vm
