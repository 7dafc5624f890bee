import MultiPython.Logic.Calls

/-!
# WebSocket frames

`extmod/moduwebsocket.c` over a socket that may give fewer bytes than are asked for, or none for
now. The reader is a state machine whose turns of the loop are resumed by the next call when the
socket runs dry. What a read asserts about a frame is part of the model: a read whose assertion
fails does not come back.
-/

namespace MultiPython.Io

open Logic List Option

/-- The states of the reader. -/
inductive WsState where
  | frameHeader
  | frameOpt
  | payload
  | control
deriving DecidableEq, Repr

/-- `mp_obj_websocket_t`; `buf` are its `buf_pos` bytes that have been received. -/
structure WebSocket where
  msgSz : Nat
  mask : List Nat
  state : WsState
  toRecv : Nat
  maskPos : Nat
  buf : List Nat
  opts : Nat
  wsFlags : Nat
  lastFlags : Nat
deriving DecidableEq, Repr

/-- `FRAME_OPCODE_MASK`. -/
def opcode (flags : Nat) : Nat := flags &&& 0x0F

def frameClose : Nat := 8

/-- The bytes that are still to come from a socket, and how many it gives at a time; 0 is
`MP_EAGAIN`. -/
structure Socket where
  rest : List Nat
  answers : List Nat
deriving DecidableEq, Repr

/-- `read` of the socket; nothing is `MP_STREAM_ERROR`. -/
def Socket.read (sock : Socket) (size : Nat) : Option (List Nat) × Socket :=
  match sock.answers with
  | 0 :: answers => (none, { sock with answers := answers })
  | answer :: answers =>
    (some (sock.rest.take (min answer size)),
      { rest := sock.rest.drop (min answer size), answers := answers })
  | [] => (some (sock.rest.take size), { sock with rest := sock.rest.drop size })

/-- What `websocket_read` returns. It returns 0 at the end of the socket and for a close frame. -/
inductive WsResult where
  | bytes (read : List Nat)
  | again
  | eof
  | closed
deriving DecidableEq, Repr

/-- How a turn of the loop ends. -/
inductive WsTurn where
  | continues (ws : WebSocket) (sock : Socket)
  | returns (result : WsResult) (ws : WebSocket) (sock : Socket)
  | asserts
deriving DecidableEq, Repr

/-- The case `FRAME_HEADER`; nothing if an assertion fails. -/
def wsHeader (ws : WebSocket) : Option WebSocket :=
  let flags := ws.buf.getD 0 0
  let second := ws.buf.getD 1 0
  let sz := second &&& 0x7F
  if flags &&& 0x80 = 0 ∨ sz = 127 then none
  else
    let toRecv := (if sz = 126 then 2 else 0) + (if second &&& 0x80 ≠ 0 then 4 else 0)
    some { ws with
      lastFlags := flags
      wsFlags := if opcode flags = 0 then opcode ws.wsFlags ||| (flags &&& 0xF0) else flags
      mask := [0, 0, 0, 0]
      buf := []
      toRecv := toRecv
      msgSz := sz
      state :=
        if toRecv ≠ 0 then .frameOpt
        else if opcode flags ≥ frameClose then .control else .payload }

/-- The case `FRAME_OPT`. -/
def wsOpt (ws : WebSocket) : WebSocket :=
  { ws with
    msgSz :=
      if ws.buf.length &&& 3 = 2 then ws.buf.getD 0 0 <<< 8 ||| ws.buf.getD 1 0 else ws.msgSz
    mask := if ws.buf.length ≥ 4 then ws.buf.drop (ws.buf.length - 4) else ws.mask
    buf := []
    state := if opcode ws.lastFlags ≥ frameClose then .control else .payload }

/-- The loop that applies the mask, from a position on. -/
def unmask (mask : List Nat) : Nat → List Nat → List Nat
  | _, [] => []
  | maskPos, b :: bytes => (b ^^^ mask.getD (maskPos &&& 3) 0) :: unmask mask (maskPos + 1) bytes

/-- The end of a frame, from `no_payload` on. -/
def wsFrameEnd (ws : WebSocket) (read : List Nat) (sock : Socket) : WsTurn :=
  let next := { ws with state := .frameHeader, toRecv := 2, maskPos := 0, buf := [] }
  if ws.state = .control then
    if opcode ws.lastFlags = frameClose then .returns .closed next sock else .continues next sock
  else if read ≠ [] then .returns (.bytes read) next sock
  else .continues next sock

/-- The cases `PAYLOAD` and `CONTROL`. -/
def wsPayload (ws : WebSocket) (sock : Socket) (size : Nat) : WsTurn :=
  if ws.msgSz = 0 then wsFrameEnd ws [] sock
  else
    match sock.read (min size ws.msgSz) with
    | (none, sock) => .returns .again ws sock
    | (some got, sock) =>
      if got = [] then .returns .eof ws sock
      else
        let read := unmask ws.mask ws.maskPos got
        let ws := { ws with
          maskPos := (ws.maskPos + got.length) % 256
          msgSz := ws.msgSz - got.length }
        if ws.msgSz = 0 then wsFrameEnd ws read sock else .returns (.bytes read) ws sock

/-- The `switch` of `websocket_read`. -/
def wsSwitch (ws : WebSocket) (sock : Socket) (size : Nat) : WsTurn :=
  match ws.state with
  | .frameHeader =>
    match wsHeader ws with
    | none => .asserts
    | some ws => .continues ws sock
  | .frameOpt => .continues (wsOpt ws) sock
  | .payload => wsPayload ws sock size
  | .control => wsPayload ws sock size

/-- One turn of the loop of `websocket_read`. -/
def wsTurn (ws : WebSocket) (sock : Socket) (size : Nat) : WsTurn :=
  if ws.toRecv ≠ 0 then
    match sock.read ws.toRecv with
    | (none, sock) => .returns .again ws sock
    | (some got, sock) =>
      if got = [] then .returns .eof ws sock
      else
        let ws := { ws with buf := ws.buf ++ got, toRecv := ws.toRecv - got.length }
        if ws.toRecv ≠ 0 then .returns .again ws sock else wsSwitch ws sock size
  else wsSwitch ws sock size

/-- The loop of `websocket_read`, for a number of turns. -/
def wsLoop : Nat → WebSocket → Socket → Nat → Option (WsResult × WebSocket × Socket)
  | 0, _, _, _ => none
  | turns + 1, ws, sock, size =>
    match wsTurn ws sock size with
    | .continues ws sock => wsLoop turns ws sock size
    | .returns result ws sock => some (result, ws, sock)
    | .asserts => none

/-- What decreases with every turn: the bytes of the socket, and the way from a payload to the next
header. -/
def wsMeasure (ws : WebSocket) (sock : Socket) : Nat :=
  3 * sock.rest.length + if ws.state = .payload ∨ ws.state = .control then 1 else 0

/-- `websocket_read`. Every other turn reads something, so it never runs out of turns. -/
def websocketRead (ws : WebSocket) (sock : Socket) (size : Nat) :
    Option (WsResult × WebSocket × Socket) :=
  wsLoop (3 * sock.rest.length + 2) ws sock size

/-- Reads one after the other; nothing if one does not come back. -/
def websocketReads (ws : WebSocket) (sock : Socket) :
    List Nat → Option (List WsResult × WebSocket × Socket)
  | [] => some ([], ws, sock)
  | size :: sizes =>
    match websocketRead ws sock size with
    | none => none
    | some (result, ws, sock) =>
      (websocketReads ws sock sizes).map fun (results, last) => (result :: results, last)

/-- What `websocket_write` sends, for a size that is asserted to be below 65536. -/
def websocketWrite (opts : Nat) (bytes : List Nat) : List Nat :=
  let header :=
    if bytes.length < 126 then [bytes.length] else [126, bytes.length >>> 8, bytes.length &&& 0xFF]
  (0x80 ||| opcode opts) :: header ++ bytes

def websocketMakeNew (mask : List Nat) (msgSz wsFlags lastFlags : Nat) : WebSocket where
  msgSz := msgSz
  mask := mask
  state := .frameHeader
  toRecv := 2
  maskPos := 0
  buf := []
  opts := 1
  wsFlags := wsFlags
  lastFlags := lastFlags

/-! ## Frames -/

/-- A frame: its first byte, the four bytes of its mask, whether its size stands in two bytes more,
and what it carries. -/
structure Frame where
  flags : Nat
  mask : Option (List Nat)
  long : Bool
  payload : List Nat
deriving DecidableEq, Repr

namespace Frame

/-- The frame is final, and its size and its mask can be sent. -/
structure Valid (f : Frame) : Prop where
  final : f.flags &&& 0x80 ≠ 0
  size : f.payload.length < 65536
  short : f.long = false → f.payload.length < 126
  mask : ∀ mask ∈ f.mask, mask.length = 4

/-- The mask that is applied. -/
def key (f : Frame) : List Nat := f.mask.getD [0, 0, 0, 0]

/-- The size in the second byte. -/
def size7 (f : Frame) : Nat := if f.long then 126 else f.payload.length

/-- The bytes between the header and the payload. -/
def opt (f : Frame) : List Nat :=
  (if f.long then [f.payload.length / 256, f.payload.length % 256] else []) ++ f.mask.getD []

/-- The payload as it is sent. -/
def wire (f : Frame) : List Nat := unmask f.key 0 f.payload

def encode (f : Frame) : List Nat :=
  [f.flags, (if f.mask.isSome then 128 else 0) + f.size7] ++ f.opt ++ f.wire

/-- A control frame. -/
def IsControl (f : Frame) : Prop := frameClose ≤ opcode f.flags

instance (f : Frame) : Decidable f.IsControl := inferInstanceAs (Decidable (_ ≤ _))

end Frame

/-- What a reader should see of a stream of frames. -/
inductive WsEvent where
  | byte (b : Nat)
  | close
deriving DecidableEq, Repr

/-- A data frame is its bytes, a close frame is a close, and other control frames are nothing. -/
def Frame.events (f : Frame) : List WsEvent :=
  if opcode f.flags = frameClose then [.close]
  else if f.IsControl then [] else f.payload.map .byte

/-- The recorded type after a frame: that of the last data frame, which a continuation keeps. -/
def Frame.record (flags : Nat) (f : Frame) : Nat :=
  if f.IsControl then flags
  else if opcode f.flags = 0 then opcode flags ||| (f.flags &&& 0xF0) else f.flags

/-- What a result tells the reader. -/
def WsResult.events : WsResult → List WsEvent
  | .bytes read => read.map .byte
  | .again => []
  | .eof => []
  | .closed => [.close]

/-- The reader stands somewhere in a stream of frames. Those that it has seen the header of are
`processed`, and `pending` is what it still has to tell. -/
inductive Stands (init : Nat) : List Frame → List Frame → WebSocket → List Nat → List WsEvent → Prop
  where
  | header {processed todo : List Frame} {ws : WebSocket} {rest : List Nat}
      (state : ws.state = .frameHeader) (received : ws.buf.length + ws.toRecv = 2)
      (more : ws.toRecv ≠ 0) (maskPos : ws.maskPos = 0)
      (bytes : ws.buf ++ rest = todo.flatMap Frame.encode)
      (recorded : (∀ f ∈ processed, ¬f.IsControl) → ws.wsFlags = processed.foldl Frame.record init) :
      Stands init processed todo ws rest (todo.flatMap Frame.events)
  | opt {processed todo : List Frame} {frame : Frame} {ws : WebSocket} {rest : List Nat}
      (state : ws.state = .frameOpt) (received : ws.buf.length + ws.toRecv = frame.opt.length)
      (more : ws.toRecv ≠ 0) (maskPos : ws.maskPos = 0)
      (bytes : ws.buf ++ rest = frame.opt ++ frame.wire ++ todo.flatMap Frame.encode)
      (msgSz : ws.msgSz = frame.size7) (mask : ws.mask = [0, 0, 0, 0])
      (lastFlags : ws.lastFlags = frame.flags) (member : frame ∈ processed)
      (recorded : (∀ f ∈ processed, ¬f.IsControl) → ws.wsFlags = processed.foldl Frame.record init) :
      Stands init processed todo ws rest (frame.events ++ todo.flatMap Frame.events)
  | payload {processed todo : List Frame} {frame : Frame} {ws : WebSocket} {rest : List Nat} {k : Nat}
      (state : ws.state = if frame.IsControl then .control else .payload) (received : ws.toRecv = 0)
      (inside : k ≤ frame.payload.length) (maskPos : ws.maskPos % 4 = k % 4)
      (bytes : rest = frame.wire.drop k ++ todo.flatMap Frame.encode)
      (msgSz : ws.msgSz = frame.payload.length - k) (mask : ws.mask = frame.key)
      (lastFlags : ws.lastFlags = frame.flags) (member : frame ∈ processed)
      (recorded : (∀ f ∈ processed, ¬f.IsControl) → ws.wsFlags = processed.foldl Frame.record init) :
      Stands init processed todo ws rest
        ((if frame.IsControl then frame.events else (frame.payload.drop k).map .byte) ++
          todo.flatMap Frame.events)

/-- The payload of a control frame is read at once, or not at all. -/
def ControlWhole (ws : WebSocket) (sock : Socket) (size : Nat) : Prop :=
  ws.state = .control → ws.msgSz ≠ 0 →
    ws.msgSz ≤ size ∧ ∀ answer ∈ sock.answers.head?, answer = 0 ∨ ws.msgSz ≤ answer

/-- A turn of the loop leads to another one. -/
def Turns (size : Nat) (before after : WebSocket × Socket) : Prop :=
  wsTurn before.1 before.2 size = .continues after.1 after.2

/-- Every turn of a call that comes to the payload of a control frame reads it at once. -/
def ControlsWhole (ws : WebSocket) (sock : Socket) (size : Nat) : Prop :=
  ∀ after, Relation.ReflTransGen (Turns size) (ws, sock) after → ControlWhole after.1 after.2 size

/-- How a call or a turn of it should end. -/
structure WsMeets (pending : List WsEvent) (sock : Socket) (result : WsResult) (next : Socket)
    (left : List WsEvent) : Prop where
  events : pending = result.events ++ left
  fewer : next.answers.length ≤ sock.answers.length
  some_ : ∀ read, result = .bytes read → read ≠ []
  again : result = .again → next.answers.length < sock.answers.length
  eof : result = .eof → left = []

/-! ## Masks -/

theorem unmask_nil (mask : List Nat) (maskPos : Nat) : unmask mask maskPos [] = [] := rfl

theorem unmask_cons (mask : List Nat) (maskPos b : Nat) (bytes : List Nat) :
    unmask mask maskPos (b :: bytes) =
      (b ^^^ mask.getD (maskPos &&& 3) 0) :: unmask mask (maskPos + 1) bytes := rfl

theorem length_unmask (mask : List Nat) (maskPos : Nat) (bytes : List Nat) :
    (unmask mask maskPos bytes).length = bytes.length := by
  induction bytes generalizing maskPos with
  | nil => rfl
  | cons b bytes ih => simp only [unmask_cons, length_cons, ih]

theorem unmask_congr {mask : List Nat} {first second : Nat} (same : first % 4 = second % 4)
    (bytes : List Nat) : unmask mask first bytes = unmask mask second bytes := by
  induction bytes generalizing first second with
  | nil => rfl
  | cons b bytes ih =>
    have low : ∀ n : Nat, n &&& 3 = n % 4 := fun n => Nat.and_two_pow_sub_one_eq_mod n 2
    rw [unmask_cons, unmask_cons, low, low, same,
      ih (show (first + 1) % 4 = (second + 1) % 4 by omega)]

theorem unmask_unmask (mask : List Nat) (maskPos : Nat) (bytes : List Nat) :
    unmask mask maskPos (unmask mask maskPos bytes) = bytes := by
  induction bytes generalizing maskPos with
  | nil => rfl
  | cons b bytes ih =>
    rw [unmask_cons, unmask_cons, ih, Nat.xor_assoc, Nat.xor_self, Nat.xor_zero]

theorem drop_unmask (mask : List Nat) (maskPos count : Nat) (bytes : List Nat) :
    (unmask mask maskPos bytes).drop count = unmask mask (maskPos + count) (bytes.drop count) := by
  induction bytes generalizing maskPos count with
  | nil => simp [unmask_nil]
  | cons b bytes ih =>
    cases count with
    | zero => rfl
    | succ count =>
      rw [unmask_cons, drop_succ_cons, drop_succ_cons, ih,
        show maskPos + 1 + count = maskPos + (count + 1) by omega]

theorem take_unmask (mask : List Nat) (maskPos count : Nat) (bytes : List Nat) :
    (unmask mask maskPos bytes).take count = unmask mask maskPos (bytes.take count) := by
  induction bytes generalizing maskPos count with
  | nil => simp [unmask_nil]
  | cons b bytes ih =>
    cases count with
    | zero => rfl
    | succ count => rw [unmask_cons, take_succ_cons, take_succ_cons, unmask_cons, ih]

theorem Frame.unmask_wire (f : Frame) {maskPos k : Nat} (same : maskPos % 4 = k % 4) (count : Nat) :
    unmask f.key maskPos ((f.wire.drop k).take count) = (f.payload.drop k).take count := by
  rw [Frame.wire, drop_unmask, Nat.zero_add, take_unmask, unmask_congr same, unmask_unmask]

theorem Frame.length_wire (f : Frame) : f.wire.length = f.payload.length := length_unmask _ _ _

/-! ## Turns of the reader -/

section Turns

variable {init size : Nat} {processed todo : List Frame} {ws : WebSocket} {sock : Socket}
  {pending : List WsEvent}

theorem Socket.read_spec (sock : Socket) (size : Nat) :
    (∃ next, sock.read size = (none, next) ∧ next.rest = sock.rest ∧
        next.answers.length < sock.answers.length) ∨
      ∃ next count, sock.read size = (some (sock.rest.take count), next) ∧
        next.rest = sock.rest.drop count ∧ count ≤ size ∧ (0 < size → 0 < count) ∧
        next.answers.length ≤ sock.answers.length ∧
        (count < size → next.answers.length < sock.answers.length) ∧
        ((∀ answer ∈ sock.answers.head?, answer = 0 ∨ size ≤ answer) → count = size) := by
  obtain ⟨rest, answers⟩ := sock
  cases answers with
  | nil => exact .inr ⟨_, size, rfl, rfl, Nat.le_refl _, id, Nat.le_refl _, fun less => by omega,
        fun _ => rfl⟩
  | cons answer answers =>
    cases answer with
    | zero => exact .inl ⟨_, rfl, rfl, by simp⟩
    | succ answer =>
      refine .inr ⟨_, min (answer + 1) size, rfl, rfl, Nat.min_le_right _ _, by omega,
        by simp, fun _ => by simp, fun large => ?_⟩
      have := large (answer + 1) rfl
      omega

theorem Frame.two_le_encode (f : Frame) : 2 ≤ f.encode.length := by
  simp only [Frame.encode, length_append, length_cons, length_nil]
  omega

theorem exists_frame {bytes : List Nat} (same : bytes = todo.flatMap Frame.encode)
    (some_ : bytes ≠ []) : ∃ f later, todo = f :: later ∧
      bytes = f.flags :: ((if f.mask.isSome then 128 else 0) + f.size7) ::
        (f.opt ++ f.wire ++ later.flatMap Frame.encode) := by
  cases todo with
  | nil => exact absurd same some_
  | cons f later =>
    refine ⟨f, later, rfl, ?_⟩
    rw [same, flatMap_cons, Frame.encode]
    simp

set_option maxRecDepth 4000 in
/-- The two parts of the second byte. -/
theorem secondByte : ∀ sz < 127,
    ((128 + sz) &&& 0x7F = sz ∧ (128 + sz) &&& 0x80 ≠ 0) ∧
      ((0 + sz) &&& 0x7F = sz ∧ (0 + sz) &&& 0x80 = 0) := by
  decide

variable {f : Frame}

theorem Frame.Valid.size7_lt (valid : f.Valid) : f.size7 < 127 := by
  unfold Frame.size7
  split_ifs with long
  · omega
  · have := valid.short (by simpa using long)
    omega

theorem Frame.Valid.length_opt (valid : f.Valid) :
    f.opt.length = (if f.long then 2 else 0) + if f.mask.isSome then 4 else 0 := by
  unfold Frame.opt
  rw [length_append]
  cases isMask : f.mask with
  | none => cases f.long <;> rfl
  | some mask =>
    have length := valid.mask mask isMask
    cases f.long <;> simp [length]

theorem Stands.next (recorded : (∀ f ∈ processed, ¬f.IsControl) →
      ws.wsFlags = processed.foldl Frame.record init) :
    Stands init processed todo
      { ws with state := .frameHeader, toRecv := 2, maskPos := 0, buf := [] }
      (todo.flatMap Frame.encode) (todo.flatMap Frame.events) :=
  .header rfl rfl two_ne_zero rfl rfl recorded

theorem Stands.payloadStarts {rest : List Nat} (state : ws.state =
      if opcode f.flags ≥ frameClose then .control else .payload) (received : ws.toRecv = 0)
    (maskPos : ws.maskPos = 0) (bytes : rest = f.wire ++ todo.flatMap Frame.encode)
    (msgSz : ws.msgSz = f.payload.length) (mask : ws.mask = f.key)
    (lastFlags : ws.lastFlags = f.flags) (member : f ∈ processed)
    (recorded : (∀ f ∈ processed, ¬f.IsControl) → ws.wsFlags = processed.foldl Frame.record init) :
    Stands init processed todo ws rest (f.events ++ todo.flatMap Frame.events) := by
  have here : (if f.IsControl then f.events else (f.payload.drop 0).map .byte) = f.events := by
    by_cases control : f.IsControl
    · rw [if_pos control]
    · have open_ : opcode f.flags ≠ frameClose := fun same => control (by
        rw [Frame.IsControl, same])
      rw [if_neg control, Frame.events, if_neg open_, if_neg control, drop_zero]
  rw [← here]
  exact .payload state received (Nat.zero_le _) (by rw [maskPos]) bytes
    (by rw [msgSz, Nat.sub_zero]) mask lastFlags member recorded

/-- What the header of a frame leads to. -/
theorem wsHeader_spec (valid : f.Valid)
    (isBuf : ws.buf = [f.flags, (if f.mask.isSome then 128 else 0) + f.size7])
    (maskPos : ws.maskPos = 0)
    (recorded : (∀ f ∈ processed, ¬f.IsControl) → ws.wsFlags = processed.foldl Frame.record init) :
    ∃ next, wsHeader ws = some next ∧
      Stands init (processed ++ [f]) todo next (f.opt ++ f.wire ++ todo.flatMap Frame.encode)
        (f.events ++ todo.flatMap Frame.events) := by
  obtain ⟨masked, plain⟩ := secondByte f.size7 valid.size7_lt
  have sizeBits : ((if f.mask.isSome then 128 else 0) + f.size7) &&& 0x7F = f.size7 := by
    split_ifs
    · exact masked.1
    · exact plain.1
  have toRecv : (if f.size7 = 126 then 2 else 0) +
      (if ((if f.mask.isSome then 128 else 0) + f.size7) &&& 0x80 ≠ 0 then 4 else 0) =
      f.opt.length := by
    have isLong : f.size7 = 126 ↔ f.long = true := by
      unfold Frame.size7
      cases long : f.long with
      | true => simp
      | false =>
        have := valid.short long
        simp only [Bool.false_eq_true, if_false, iff_false]
        omega
    have isMasked : ((if f.mask.isSome then 128 else 0) + f.size7) &&& 0x80 ≠ 0 ↔
        f.mask.isSome = true := by
      cases f.mask.isSome with
      | true => simpa using masked.2
      | false => simpa using plain.2
    rw [valid.length_opt]
    simp only [isLong, isMasked]
  have newRecorded : (∀ g ∈ processed ++ [f], ¬g.IsControl) →
      (if opcode f.flags = 0 then opcode ws.wsFlags ||| (f.flags &&& 0xF0) else f.flags) =
        (processed ++ [f]).foldl Frame.record init := by
    intro data
    have isData : ¬f.IsControl := data f (by simp)
    rw [foldl_append, ← recorded fun g member => data g (mem_append_left _ member),
      foldl_cons, foldl_nil, Frame.record, if_neg isData]
  have notLast : f.size7 ≠ 127 := by
    have := valid.size7_lt
    omega
  simp only [wsHeader, isBuf, getD_cons_zero, getD_cons_succ, sizeBits,
    if_neg (not_or.mpr ⟨valid.final, notLast⟩), toRecv]
  refine ⟨_, rfl, ?_⟩
  by_cases none_ : f.opt.length = 0
  · -- The payload follows at once.
    have noOpt := valid.length_opt
    rw [none_] at noOpt
    have short : f.long = false := by
      cases long : f.long with
      | false => rfl
      | true =>
        rw [long] at noOpt
        simp only [if_true] at noOpt
        omega
    have noMask : f.mask = none := by
      cases isMask : f.mask with
      | none => rfl
      | some mask =>
        rw [isMask] at noOpt
        simp only [isSome_some, if_true] at noOpt
        omega
    rw [eq_nil_of_length_eq_zero none_, nil_append]
    refine .payloadStarts rfl rfl maskPos rfl ?_ ?_ rfl (by simp) newRecorded
    · simp [Frame.size7, short]
    · simp [Frame.key, noMask]
  · refine .opt ?_ (Nat.zero_add _) none_ maskPos rfl rfl rfl rfl (by simp) newRecorded
    show (if f.opt.length ≠ 0 then _ else _) = _
    rw [if_pos none_]

/-- What the bytes behind the header lead to. -/
theorem wsOpt_spec (valid : f.Valid) (isBuf : ws.buf = f.opt) (received : ws.toRecv = 0)
    (maskPos : ws.maskPos = 0) (msgSz : ws.msgSz = f.size7) (mask : ws.mask = [0, 0, 0, 0])
    (lastFlags : ws.lastFlags = f.flags) (member : f ∈ processed)
    (recorded : (∀ f ∈ processed, ¬f.IsControl) → ws.wsFlags = processed.foldl Frame.record init) :
    Stands init processed todo (wsOpt ws) (f.wire ++ todo.flatMap Frame.encode)
      (f.events ++ todo.flatMap Frame.events) := by
  have size : (f.payload.length / 256) <<< 8 ||| f.payload.length % 256 = f.payload.length := by
    rw [← Nat.shiftLeft_add_eq_or_of_lt (i := 8) (Nat.mod_lt _ (by decide)), Nat.shiftLeft_eq]
    omega
  refine .payloadStarts (by rw [wsOpt, lastFlags]) received maskPos rfl ?_ ?_ lastFlags member
    recorded
  · show (if ws.buf.length &&& 3 = 2 then _ else _) = _
    rw [isBuf, msgSz]
    cases long : f.long with
    | true =>
      have bits : f.opt.length &&& 3 = 2 := by
        rw [valid.length_opt, long]
        cases f.mask.isSome <;> rfl
      rw [if_pos bits]
      simp [Frame.opt, long, size]
    | false =>
      have bits : f.opt.length &&& 3 ≠ 2 := by
        rw [valid.length_opt, long]
        cases f.mask.isSome <;> decide
      rw [if_neg bits, Frame.size7, long]
      rfl
  · show (if ws.buf.length ≥ 4 then _ else _) = _
    rw [isBuf, mask]
    cases isMask : f.mask with
    | none =>
      have few : ¬f.opt.length ≥ 4 := by
        rw [valid.length_opt, isMask]
        cases f.long <;> decide
      rw [if_neg few, Frame.key, isMask]
      rfl
    | some key =>
      have length := valid.mask key isMask
      have many : f.opt.length ≥ 4 := by
        rw [valid.length_opt, isMask]
        simp only [isSome_some, if_true]
        omega
      rw [if_pos many, Frame.key, isMask, getD_some, Frame.opt, isMask, getD_some,
        length_append, length, Nat.add_sub_cancel, drop_left]

/-- How a turn should end that starts with something to tell. -/
def TurnMeets (init : Nat) (processed todo : List Frame) (pending : List WsEvent) (ws : WebSocket)
    (sock : Socket) : WsTurn → Prop
  | .continues next after =>
    (∃ processed' todo', processed' ++ todo' = processed ++ todo ∧
      Stands init processed' todo' next after.rest pending) ∧
    after.answers.length ≤ sock.answers.length ∧ wsMeasure next after < wsMeasure ws sock
  | .returns result next after =>
    ∃ processed' todo' left, processed' ++ todo' = processed ++ todo ∧
      Stands init processed' todo' next after.rest left ∧ WsMeets pending sock result after left
  | .asserts => False

/-- A turn that waits for bytes of a header gets none, or some, or all of them. -/
theorem wsTurn_receives (more : ws.toRecv ≠ 0)
    (enough : sock.rest = [] ∨ ws.toRecv ≤ sock.rest.length) :
    (∃ next, wsTurn ws sock size = .returns .again ws next ∧ next.rest = sock.rest ∧
        next.answers.length < sock.answers.length) ∨
      (sock.rest = [] ∧ ∃ next, wsTurn ws sock size = .returns .eof ws next ∧ next.rest = [] ∧
        next.answers.length ≤ sock.answers.length) ∨
      (∃ next count, count < ws.toRecv ∧ count ≤ sock.rest.length ∧
        wsTurn ws sock size = .returns .again
          { ws with buf := ws.buf ++ sock.rest.take count, toRecv := ws.toRecv - count } next ∧
        next.rest = sock.rest.drop count ∧ next.answers.length < sock.answers.length) ∨
      ∃ next, wsTurn ws sock size =
          wsSwitch { ws with buf := ws.buf ++ sock.rest.take ws.toRecv, toRecv := 0 } next size ∧
        next.rest = sock.rest.drop ws.toRecv ∧ next.answers.length ≤ sock.answers.length ∧
        ws.toRecv ≤ sock.rest.length := by
  simp only [wsTurn, if_pos more]
  rcases Socket.read_spec sock ws.toRecv with ⟨next, reads, rest, fewer⟩ |
    ⟨next, count, reads, rest, small, positive, noMore, short, -⟩
  · exact .inl ⟨next, by rw [reads], rest, fewer⟩
  · have positive := positive (Nat.pos_of_ne_zero more)
    rw [reads]
    dsimp only
    rcases enough with empty | enough
    · refine .inr (.inl ⟨empty, next, ?_, by rw [rest, empty, drop_nil], noMore⟩)
      rw [empty, take_nil, if_pos rfl]
    · have length : (sock.rest.take count).length = count := by
        rw [length_take]
        omega
      have some_ : sock.rest.take count ≠ [] := length_pos_iff.mp (by omega)
      rw [if_neg some_, length]
      by_cases all : count = ws.toRecv
      · subst all
        rw [Nat.sub_self, if_neg (not_not.mpr rfl)]
        exact .inr (.inr (.inr ⟨next, rfl, rest, noMore, enough⟩))
      · rw [if_pos (by omega)]
        exact .inr (.inr (.inl
          ⟨next, count, by omega, by omega, rfl, rest, short (by omega)⟩))

/-- A turn that starts before a header. -/
theorem wsTurn_header (valid : ∀ f ∈ todo, f.Valid) (state : ws.state = .frameHeader)
    (received : ws.buf.length + ws.toRecv = 2) (more : ws.toRecv ≠ 0) (maskPos : ws.maskPos = 0)
    (bytes : ws.buf ++ sock.rest = todo.flatMap Frame.encode)
    (recorded : (∀ f ∈ processed, ¬f.IsControl) → ws.wsFlags = processed.foldl Frame.record init) :
    TurnMeets init processed todo (todo.flatMap Frame.events) ws sock (wsTurn ws sock size) := by
  have enough : sock.rest = [] ∨ ws.toRecv ≤ sock.rest.length := by
    by_cases none_ : ws.buf ++ sock.rest = []
    · exact .inl (append_eq_nil_iff.mp none_).2
    · obtain ⟨f, later, -, split⟩ := exists_frame bytes none_
      have length := congrArg length split
      simp only [length_append, length_cons] at length
      exact .inr (by omega)
  rcases @wsTurn_receives size ws sock more enough with ⟨next, turns, rest, fewer⟩ |
    ⟨empty, next, turns, rest, noMore⟩ | ⟨next, count, less, inside, turns, rest, fewer⟩ |
    ⟨next, turns, rest, noMore, inside⟩
  · rw [turns]
    refine ⟨processed, todo, _, rfl, .header state received more maskPos ?_ recorded, ?_⟩
    · rw [rest, bytes]
    · exact ⟨rfl, fewer.le, fun _ same => (by cases same), fun _ => fewer,
        fun same => (by cases same)⟩
  · -- At the end of the socket there are no further frames.
    rw [turns]
    have none_ : todo = [] := by
      cases todo with
      | nil => rfl
      | cons f later =>
        have length := congrArg length bytes
        have two := f.two_le_encode
        rw [empty, append_nil, flatMap_cons, length_append] at length
        omega
    subst none_
    refine ⟨processed, [], _, rfl, .header state received more maskPos ?_ recorded, ?_⟩
    · rw [rest, ← empty, bytes]
    · exact ⟨rfl, noMore, fun _ same => (by cases same), fun same => (by cases same), fun _ => rfl⟩
  · rw [turns]
    refine ⟨processed, todo, _, rfl, .header state ?_ ?_ maskPos ?_ recorded, ?_⟩
    · show (ws.buf ++ sock.rest.take count).length + (ws.toRecv - count) = 2
      rw [length_append, length_take]
      omega
    · show ws.toRecv - count ≠ 0
      omega
    · show ws.buf ++ sock.rest.take count ++ next.rest = _
      rw [append_assoc, rest, take_append_drop, bytes]
    · exact ⟨rfl, fewer.le, fun _ same => (by cases same), fun _ => fewer,
        fun same => (by cases same)⟩
  · -- The whole header is there.
    have some_ : ws.buf ++ sock.rest ≠ [] := by
      rw [Ne, append_eq_nil_iff, not_and]
      intro _ empty
      rw [empty, length_nil] at inside
      omega
    obtain ⟨f, later, rfl, split⟩ := exists_frame bytes some_
    have whole : ws.buf ++ sock.rest.take ws.toRecv ++ next.rest = ws.buf ++ sock.rest := by
      rw [rest, append_assoc, take_append_drop]
    rw [split] at whole
    have header : ws.buf ++ sock.rest.take ws.toRecv =
          [f.flags, (if f.mask.isSome then 128 else 0) + f.size7] ∧
        next.rest = f.opt ++ f.wire ++ later.flatMap Frame.encode := by
      refine append_inj whole ?_
      rw [length_append, length_take]
      simp only [length_cons, length_nil]
      omega
    obtain ⟨after, comes, stands⟩ := @wsHeader_spec init processed later
      { ws with buf := ws.buf ++ sock.rest.take ws.toRecv, toRecv := 0 } f
      (valid f mem_cons_self) header.1 maskPos recorded
    have turn : wsTurn ws sock size = .continues after next := by
      simp only [state] at comes
      rw [turns, wsSwitch]
      simp only [state, comes]
    rw [turn]
    refine ⟨⟨processed ++ [f], later, by simp, ?_⟩, noMore, ?_⟩
    · rw [header.2]
      exact stands
    · have shorter : next.rest.length < sock.rest.length := by
        rw [rest, length_drop]
        omega
      simp only [wsMeasure]
      split_ifs <;> omega

/-- A turn that starts behind a header. -/
theorem wsTurn_opt (valid : f.Valid) (state : ws.state = .frameOpt)
    (received : ws.buf.length + ws.toRecv = f.opt.length) (more : ws.toRecv ≠ 0)
    (maskPos : ws.maskPos = 0)
    (bytes : ws.buf ++ sock.rest = f.opt ++ f.wire ++ todo.flatMap Frame.encode)
    (msgSz : ws.msgSz = f.size7) (mask : ws.mask = [0, 0, 0, 0])
    (lastFlags : ws.lastFlags = f.flags) (member : f ∈ processed)
    (recorded : (∀ f ∈ processed, ¬f.IsControl) → ws.wsFlags = processed.foldl Frame.record init) :
    TurnMeets init processed todo (f.events ++ todo.flatMap Frame.events) ws sock
      (wsTurn ws sock size) := by
  have enough : ws.toRecv ≤ sock.rest.length := by
    have length := congrArg length bytes
    simp only [length_append] at length
    omega
  rcases @wsTurn_receives size ws sock more (.inr enough) with ⟨next, turns, rest, fewer⟩ |
    ⟨empty, -⟩ | ⟨next, count, less, inside, turns, rest, fewer⟩ |
    ⟨next, turns, rest, noMore, inside⟩
  · rw [turns]
    refine ⟨processed, todo, _, rfl,
      .opt state received more maskPos ?_ msgSz mask lastFlags member recorded, ?_⟩
    · rw [rest, bytes]
    · exact ⟨rfl, fewer.le, fun _ same => (by cases same), fun _ => fewer,
        fun same => (by cases same)⟩
  · rw [empty, length_nil] at enough
    omega
  · rw [turns]
    refine ⟨processed, todo, _, rfl,
      .opt state ?_ ?_ maskPos ?_ msgSz mask lastFlags member recorded, ?_⟩
    · show (ws.buf ++ sock.rest.take count).length + (ws.toRecv - count) = f.opt.length
      rw [length_append, length_take]
      omega
    · show ws.toRecv - count ≠ 0
      omega
    · show ws.buf ++ sock.rest.take count ++ next.rest = _
      rw [append_assoc, rest, take_append_drop, bytes]
    · exact ⟨rfl, fewer.le, fun _ same => (by cases same), fun _ => fewer,
        fun same => (by cases same)⟩
  · have whole : ws.buf ++ sock.rest.take ws.toRecv ++ next.rest =
        f.opt ++ (f.wire ++ todo.flatMap Frame.encode) := by
      rw [rest, append_assoc, take_append_drop, bytes, append_assoc]
    have optional : ws.buf ++ sock.rest.take ws.toRecv = f.opt ∧
        next.rest = f.wire ++ todo.flatMap Frame.encode := by
      refine append_inj whole ?_
      rw [length_append, length_take]
      omega
    have stands := @wsOpt_spec init processed todo
      { ws with buf := ws.buf ++ sock.rest.take ws.toRecv, toRecv := 0 } f valid optional.1 rfl
      maskPos msgSz mask lastFlags member recorded
    rw [turns, wsSwitch]
    simp only [state] at stands ⊢
    refine ⟨⟨processed, todo, rfl, ?_⟩, noMore, ?_⟩
    · rw [optional.2]
      exact stands
    · have shorter : next.rest.length < sock.rest.length := by
        rw [rest, length_drop]
        omega
      simp only [wsMeasure]
      split_ifs <;> omega

/-- The end of a frame tells what it is. -/
theorem wsFrameEnd_spec {read : List Nat}
    (state : ws.state = if f.IsControl then .control else .payload)
    (lastFlags : ws.lastFlags = f.flags) (rest : sock.rest = todo.flatMap Frame.encode)
    (recorded : (∀ f ∈ processed, ¬f.IsControl) → ws.wsFlags = processed.foldl Frame.record init)
    {before : Socket} (noMore : sock.answers.length ≤ before.answers.length) {start : WebSocket}
    (decreases : 3 * sock.rest.length < wsMeasure start before) :
    TurnMeets init processed todo
      ((if f.IsControl then f.events else read.map .byte) ++ todo.flatMap Frame.events) start before
      (wsFrameEnd ws read sock) := by
  have stands : Stands init processed todo
      { ws with state := .frameHeader, toRecv := 2, maskPos := 0, buf := [] } sock.rest
      (todo.flatMap Frame.events) := by
    rw [rest]
    exact Stands.next recorded
  have measure : ∀ after : WebSocket, after.state = .frameHeader →
      wsMeasure after sock < wsMeasure start before := by
    intro after isHeader
    rw [wsMeasure, isHeader]
    exact decreases
  unfold wsFrameEnd
  by_cases control : f.IsControl
  · rw [if_pos control] at state ⊢
    simp only [state, if_true]
    rw [Frame.events, ← lastFlags]
    by_cases close : opcode ws.lastFlags = frameClose
    · rw [if_pos close, if_pos close]
      exact ⟨processed, todo, _, rfl, stands, rfl, noMore, fun _ same => (by cases same),
        fun same => (by cases same), fun same => (by cases same)⟩
    · rw [if_neg close, if_neg close, if_pos control, nil_append]
      exact ⟨⟨processed, todo, rfl, stands⟩, noMore, measure _ rfl⟩
  · rw [if_neg control] at state ⊢
    simp only [state, reduceCtorEq, if_false]
    by_cases none_ : read = []
    · rw [if_neg (not_not.mpr none_), none_]
      exact ⟨⟨processed, todo, rfl, stands⟩, noMore, measure _ rfl⟩
    · rw [if_pos none_]
      exact ⟨processed, todo, _, rfl, stands, rfl, noMore, fun _ same => (by cases same; exact none_),
        fun same => (by cases same), fun same => (by cases same)⟩

theorem mask_moved {maskPos k : Nat} (same : maskPos % 4 = k % 4) (count : Nat) :
    (maskPos + count) % 256 % 4 = (k + count) % 4 := by
  omega

theorem payload_received {k count : Nat} {next : Socket} (positive : 0 < count)
    (inside : k + count ≤ f.payload.length) (rest : next.rest = sock.rest.drop count)
    (bytes : sock.rest = f.wire.drop k ++ todo.flatMap Frame.encode) :
    sock.rest.take count = (f.wire.drop k).take count ∧ (sock.rest.take count).length = count ∧
      next.rest = f.wire.drop (k + count) ++ todo.flatMap Frame.encode ∧
      next.rest.length < sock.rest.length := by
  have available : count ≤ (f.wire.drop k).length := by
    rw [length_drop, f.length_wire]
    omega
  have got : sock.rest.take count = (f.wire.drop k).take count := by
    rw [bytes, take_append_of_le_length available]
  have gotLength : (sock.rest.take count).length = count := by
    rw [got, length_take, Nat.min_eq_left available]
  refine ⟨got, gotLength, ?_, ?_⟩
  · rw [rest, bytes, drop_append_of_le_length available, drop_drop]
  · rw [length_take] at gotLength
    rw [rest, length_drop]
    omega

/-- A turn that starts in a payload. -/
theorem wsTurn_payload {k : Nat} (positive : 0 < size)
    (state : ws.state = if f.IsControl then .control else .payload) (received : ws.toRecv = 0)
    (inside : k ≤ f.payload.length) (maskPos : ws.maskPos % 4 = k % 4)
    (bytes : sock.rest = f.wire.drop k ++ todo.flatMap Frame.encode)
    (msgSz : ws.msgSz = f.payload.length - k) (mask : ws.mask = f.key)
    (lastFlags : ws.lastFlags = f.flags) (member : f ∈ processed)
    (recorded : (∀ f ∈ processed, ¬f.IsControl) → ws.wsFlags = processed.foldl Frame.record init)
    (whole : ControlWhole ws sock size) :
    TurnMeets init processed todo
      ((if f.IsControl then f.events else (f.payload.drop k).map .byte) ++
        todo.flatMap Frame.events) ws sock (wsTurn ws sock size) := by
  have turn : wsTurn ws sock size = wsPayload ws sock size := by
    rw [wsTurn, if_neg (not_not.mpr received), wsSwitch, state]
    split_ifs <;> rfl
  have inPayload : ws.state = .payload ∨ ws.state = .control := by
    rw [state]
    split_ifs
    · exact .inr rfl
    · exact .inl rfl
  rw [turn, wsPayload]
  by_cases done : ws.msgSz = 0
  · have nothing : f.payload.drop k = [] := drop_of_length_le (by omega)
    have noWire : f.wire.drop k = [] := drop_of_length_le (by rw [f.length_wire]; omega)
    rw [if_pos done, nothing]
    rw [noWire, nil_append] at bytes
    exact @wsFrameEnd_spec init processed todo ws sock f [] state lastFlags bytes recorded sock
      (Nat.le_refl _) ws (by rw [wsMeasure, if_pos inPayload]; omega)
  · rw [if_neg done]
    rcases Socket.read_spec sock (min size ws.msgSz) with ⟨next, reads, rest, fewer⟩ |
      ⟨next, count, reads, rest, small, some_, noMore, short, exactly⟩
    · rw [reads]
      refine ⟨processed, todo, _, rfl, .payload state received inside maskPos (rest.trans bytes) msgSz
        mask lastFlags member recorded, ?_⟩
      exact ⟨rfl, fewer.le, fun _ same => (by cases same), fun _ => fewer,
        fun same => (by cases same)⟩
    · have counted := some_ (by omega)
      obtain ⟨got, gotLength, restNow, shorter⟩ :=
        @payload_received todo sock f k count next counted (by omega) rest bytes
      have gotSome : sock.rest.take count ≠ [] := length_pos_iff.mp (by rwa [gotLength])
      have read : unmask ws.mask ws.maskPos (sock.rest.take count) =
          (f.payload.drop k).take count := by
        rw [got, mask, f.unmask_wire maskPos]
      rw [reads]
      simp only [if_neg gotSome, read, gotLength]
      by_cases last : ws.msgSz - count = 0
      · -- The payload is complete.
        rw [if_pos last]
        have all : (f.payload.drop k).take count = f.payload.drop k :=
          take_of_length_le (by rw [length_drop]; omega)
        have noWire : f.wire.drop (k + count) = [] :=
          drop_of_length_le (by rw [f.length_wire]; omega)
        rw [noWire, nil_append] at restNow
        rw [all]
        exact @wsFrameEnd_spec init processed todo { ws with
            maskPos := (ws.maskPos + count) % 256
            msgSz := ws.msgSz - count } next f (f.payload.drop k) state lastFlags restNow recorded
          sock noMore ws (by rw [wsMeasure, if_pos inPayload]; omega)
      · -- A part of a payload is data, as control frames are read at once.
        have data : ¬f.IsControl := by
          intro control
          rw [if_pos control] at state
          obtain ⟨fits, large⟩ := whole state done
          have enough := exactly fun answer first => by
            have := large answer first
            omega
          omega
        have readSome : (f.payload.drop k).take count ≠ [] :=
          length_pos_iff.mp (by rw [length_take, length_drop]; omega)
        rw [if_neg last, if_neg data]
        refine ⟨processed, todo, (f.payload.drop (k + count)).map .byte ++ todo.flatMap Frame.events,
          rfl, ?_, ?_⟩
        · have stands := @Stands.payload init processed todo f { ws with
              maskPos := (ws.maskPos + count) % 256
              msgSz := ws.msgSz - count } next.rest (k + count) state received (by omega)
            (mask_moved maskPos count) restNow
            (by show ws.msgSz - count = _; omega) mask lastFlags member recorded
          rw [if_neg data] at stands
          exact stands
        · refine ⟨?_, noMore, fun _ same => (by cases same; exact readSome), fun same => (by cases same),
            fun same => (by cases same)⟩
          rw [WsResult.events, ← append_assoc, ← map_append, ← drop_drop,
            take_append_drop]

theorem wsTurn_spec (valid : ∀ f ∈ processed ++ todo, f.Valid) (positive : 0 < size)
    (stands : Stands init processed todo ws sock.rest pending) (whole : ControlWhole ws sock size) :
    TurnMeets init processed todo pending ws sock (wsTurn ws sock size) := by
  generalize isRest : sock.rest = rest at stands
  cases stands with
  | header state received more maskPos bytes recorded =>
    rw [← isRest] at bytes
    exact wsTurn_header (fun f member => valid f (mem_append_right _ member)) state received
      more maskPos bytes recorded
  | opt state received more maskPos bytes msgSz mask lastFlags member recorded =>
    rw [← isRest] at bytes
    exact wsTurn_opt (valid _ (mem_append_left _ member)) state received more maskPos bytes
      msgSz mask lastFlags member recorded
  | payload state received inside maskPos bytes msgSz mask lastFlags member recorded =>
    exact wsTurn_payload positive state received inside maskPos (isRest.trans bytes) msgSz mask
      lastFlags member recorded whole

/-! ## Calls -/

section

variable (valid : ∀ f ∈ processed ++ todo, f.Valid) (positive : 0 < size)
  (stands : Stands init processed todo ws sock.rest pending) (whole : ControlsWhole ws sock size)

include valid positive stands whole

theorem wsLoop_spec {turns : Nat} (enough : wsMeasure ws sock < turns) :
    ∃ result next after processed' todo' left, wsLoop turns ws sock size = some (result, next, after) ∧
      processed' ++ todo' = processed ++ todo ∧ Stands init processed' todo' next after.rest left ∧
      WsMeets pending sock result after left := by
  induction turns generalizing processed todo ws sock with
  | zero => omega
  | succ turns ih =>
    have turn := wsTurn_spec valid positive stands (whole _ .refl)
    rw [wsLoop]
    cases comes : wsTurn ws sock size with
    | asserts =>
      rw [comes] at turn
      exact turn.elim
    | returns result next after =>
      rw [comes] at turn
      obtain ⟨processed', todo', left, same, nextStands, meets⟩ := turn
      exact ⟨result, next, after, processed', todo', left, rfl, same, nextStands, meets⟩
    | continues next after =>
      rw [comes] at turn
      obtain ⟨⟨processed', todo', same, nextStands⟩, fewer, decreases⟩ := turn
      obtain ⟨result, last, final, processed'', todo'', left, returns, same', lastStands, meets⟩ :=
        ih (by rw [same]; exact valid) nextStands
          (fun later reached =>
            whole later (.head (show Turns size (ws, sock) (next, after) from comes) reached))
          (by omega)
      refine ⟨result, last, final, processed'', todo'', left, returns, same'.trans same, lastStands,
        ⟨meets.events, meets.fewer.trans fewer, meets.some_, fun again => ?_, meets.eof⟩⟩
      exact (meets.again again).trans_le fewer

theorem websocketRead_spec :
    ∃ result next after processed' todo' left,
      websocketRead ws sock size = some (result, next, after) ∧
      processed' ++ todo' = processed ++ todo ∧ Stands init processed' todo' next after.rest left ∧
      WsMeets pending sock result after left :=
  wsLoop_spec valid positive stands whole (by
    rw [wsMeasure]
    split_ifs <;> omega)

end

theorem ControlsWhole.of_continues {next : WebSocket} {after : Socket}
    (here : ControlWhole ws sock size) (turn : wsTurn ws sock size = .continues next after)
    (later : ControlsWhole next after size) : ControlsWhole ws sock size := by
  intro last reached
  rcases reached.cases_head with rfl | ⟨⟨middle, between⟩, first, rest⟩
  · exact here
  · have first : wsTurn ws sock size = .continues middle between := first
    rw [turn] at first
    cases first
    exact later last rest

theorem ControlsWhole.of_returns {result : WsResult} {next : WebSocket} {after : Socket}
    (here : ControlWhole ws sock size) (turn : wsTurn ws sock size = .returns result next after) :
    ControlsWhole ws sock size := by
  intro last reached
  rcases reached.cases_head with rfl | ⟨⟨middle, between⟩, first, -⟩
  · exact here
  · have first : wsTurn ws sock size = .continues middle between := first
    rw [turn] at first
    cases first

/-- Every call of a run in which control frames are read at once. -/
def RunsWhole (ws : WebSocket) (sock : Socket) (sizes : List Nat) : Prop :=
  ∀ made ∈ attempted (fun (state : WebSocket × Socket) size => websocketRead state.1 state.2 size)
    (ws, sock) sizes, ControlsWhole made.1.1 made.1.2 made.2

/-- What some calls have told is the front of what there was to tell. -/
theorem websocketReads_spec (valid : ∀ f ∈ processed ++ todo, f.Valid) {sizes : List Nat}
    (positive : ∀ size ∈ sizes, 0 < size)
    (stands : Stands init processed todo ws sock.rest pending) (whole : RunsWhole ws sock sizes) :
    ∃ results next after processed' todo' left,
      websocketReads ws sock sizes = some (results, next, after) ∧
      processed' ++ todo' = processed ++ todo ∧ Stands init processed' todo' next after.rest left ∧
      pending = results.flatMap WsResult.events ++ left ∧
      (∀ read, .bytes read ∈ results → read ≠ []) ∧
      results.count .again + after.answers.length ≤ sock.answers.length ∧
      (.eof ∈ results → left = []) := by
  induction sizes generalizing processed todo ws sock pending with
  | nil =>
    exact ⟨[], ws, sock, processed, todo, pending, rfl, rfl, stands, rfl, by simp, by simp, by simp⟩
  | cons size sizes ih =>
    obtain ⟨result, next, after, processed', todo', left, reads, same, nextStands, meets⟩ :=
      websocketRead_spec valid (positive size mem_cons_self) stands
        (whole ((ws, sock), size) mem_cons_self)
    have later : RunsWhole next after sizes := by
      intro made member
      apply whole
      rw [attempted]
      simp only [reads]
      exact mem_cons_of_mem _ member
    obtain ⟨results, last, final, processed'', todo'', left', returns, same', lastStands, told,
        some_, again, eof⟩ := ih (by rw [same]; exact valid)
      (fun size member => positive size (mem_cons_of_mem _ member)) nextStands later
    refine ⟨result :: results, last, final, processed'', todo'', left', ?_, same'.trans same,
      lastStands, ?_, ?_, ?_, ?_⟩
    · simp only [websocketReads, reads, returns, map_some]
    · rw [flatMap_cons, append_assoc, ← told, meets.events]
    · intro read member
      rcases mem_cons.mp member with here | there
      · exact meets.some_ read here.symm
      · exact some_ read there
    · rw [count_cons]
      have fewer := meets.fewer
      by_cases isAgain : result = .again
      · have less := meets.again isAgain
        rw [if_pos (by simp [isAgain])]
        omega
      · rw [if_neg (by simpa using isAgain)]
        omega
    · intro member
      rcases mem_cons.mp member with here | there
      · have nothing := meets.eof here.symm
        rw [nothing] at told
        exact (append_eq_nil_iff.mp told.symm).2
      · exact eof there

end Turns

/-- A frame that is written is a data frame that carries what is written. -/
theorem websocketWrite_spec {opts : Nat} {bytes : List Nat} (size : bytes.length < 65536)
    (data : opcode opts < frameClose) :
    ∃ f : Frame, f.Valid ∧ websocketWrite opts bytes = f.encode ∧
      f.events = bytes.map WsEvent.byte := by
  have unmasked : ∀ maskPos, unmask [0, 0, 0, 0] maskPos bytes = bytes := by
    induction bytes with
    | nil => intro maskPos; rfl
    | cons b bytes ih =>
      intro maskPos
      have zero : ([0, 0, 0, 0] : List Nat).getD (maskPos &&& 3) 0 = 0 := by
        have bound : maskPos &&& 3 < 4 := Nat.and_lt_two_pow _ (by decide : 3 < 2 ^ 2)
        interval_cases maskPos &&& 3 <;> rfl
      rw [unmask_cons, zero, Nat.xor_zero,
        ih (by rw [length_cons] at size; omega)]
  have flags : ∀ low < 8, (0x80 ||| low) &&& 0x80 ≠ 0 ∧ opcode (0x80 ||| low) = low := by decide
  obtain ⟨final, same⟩ := flags (opcode opts) data
  have low : bytes.length &&& 0xFF = bytes.length % 256 := Nat.and_two_pow_sub_one_eq_mod _ 8
  have high : bytes.length >>> 8 = bytes.length / 256 := Nat.shiftRight_eq_div_pow _ 8
  refine ⟨⟨0x80 ||| opcode opts, none, ¬bytes.length < 126, bytes⟩, ⟨final, size, ?_, by simp⟩, ?_, ?_⟩
  · intro short
    simpa using short
  · by_cases short : bytes.length < 126
    · simp [websocketWrite, Frame.encode, Frame.opt, Frame.wire, Frame.key, Frame.size7, short,
        unmasked]
    · simp [websocketWrite, Frame.encode, Frame.opt, Frame.wire, Frame.key, Frame.size7, short,
        unmasked, low, high]
  · have open_ : opcode (0x80 ||| opcode opts) ≠ frameClose := by
      rw [same]
      omega
    have isData : ¬frameClose ≤ opcode (0x80 ||| opcode opts) := by
      rw [same]
      omega
    rw [Frame.events, if_neg open_]
    exact if_neg isData

/-- However the socket splits a stream of frames and whatever the sizes of the reads are, the calls
tell the data frames and the closes in order, if the payload of every control frame is read at once;
each call that gets nothing uses up an answer of the socket. Without control frames the recorded
type is that of the last data frame; a control frame sets it to its own. What is written is read
back as a data frame. -/
theorem websocket_frames (mask : List Nat) (msgSz wsFlags lastFlags : Nat) {frames : List Frame}
    (valid : ∀ f ∈ frames, f.Valid) {sock : Socket} (stream : sock.rest = frames.flatMap Frame.encode)
    {sizes : List Nat} (positive : ∀ size ∈ sizes, 0 < size)
    (whole : RunsWhole (websocketMakeNew mask msgSz wsFlags lastFlags) sock sizes) :
    (∃ results next after left,
      websocketReads (websocketMakeNew mask msgSz wsFlags lastFlags) sock sizes =
        some (results, next, after) ∧
      frames.flatMap Frame.events = results.flatMap WsResult.events ++ left ∧
      (∀ read, .bytes read ∈ results → read ≠ []) ∧
      results.count .again ≤ sock.answers.length ∧ (.eof ∈ results → left = []) ∧
      ((∀ f ∈ frames, ¬f.IsControl) → ∃ processed todo, processed ++ todo = frames ∧
        next.wsFlags = processed.foldl Frame.record wsFlags)) ∧
    (∀ ws next, wsHeader ws = some next → frameClose ≤ opcode (ws.buf.getD 0 0) →
      (next.wsFlags = ws.wsFlags ↔ ws.buf.getD 0 0 = ws.wsFlags)) ∧
    ∀ opts bytes, bytes.length < 65536 → opcode opts < frameClose →
      ∃ f : Frame, f.Valid ∧ websocketWrite opts bytes = f.encode ∧
        f.events = bytes.map WsEvent.byte := by
  refine ⟨?_, ?_, fun opts bytes size data => websocketWrite_spec size data⟩
  · have stands : Stands wsFlags [] frames (websocketMakeNew mask msgSz wsFlags lastFlags) sock.rest
        (frames.flatMap Frame.events) :=
      .header rfl rfl two_ne_zero rfl stream fun _ => rfl
    obtain ⟨results, next, after, processed, todo, left, reads, same, lastStands, told, some_, again,
      eof⟩ := websocketReads_spec (by simpa using valid) positive stands whole
    refine ⟨results, next, after, left, reads, told, some_, by omega, eof, fun data => ?_⟩
    refine ⟨processed, todo, same, ?_⟩
    have processedData : ∀ f ∈ processed, ¬f.IsControl := fun f member => data f (by
      rw [← nil_append frames, ← same]
      exact mem_append_left _ member)
    cases lastStands with
    | header _ _ _ _ _ recorded => exact recorded processedData
    | opt _ _ _ _ _ _ _ _ _ recorded => exact recorded processedData
    | payload _ _ _ _ _ _ _ _ _ recorded => exact recorded processedData
  · intro ws next comes control
    have some_ : opcode (ws.buf.getD 0 0) ≠ 0 := by
      have : frameClose = 8 := rfl
      omega
    unfold wsHeader at comes
    dsimp only at comes
    by_cases asserts : ws.buf.getD 0 0 &&& 0x80 = 0 ∨ ws.buf.getD 1 0 &&& 0x7F = 127
    · rw [if_pos asserts] at comes
      cases comes
    · rw [if_neg asserts, if_neg some_] at comes
      cases comes
      exact Iff.rfl

/-- A masked text frame that comes in two pieces, an empty ping, and a close frame. -/
theorem websocket_frames_hello :
    ∃ results next after left,
      websocketReads (websocketMakeNew [] 0 0 0)
        { rest := [⟨0x81, some [1, 2, 3, 4], false, [104, 105]⟩, ⟨0x89, none, false, []⟩,
            ⟨0x88, none, false, []⟩].flatMap Frame.encode, answers := [2, 3] } [1, 5, 5] =
        some (results, next, after) ∧
      [⟨0x81, some [1, 2, 3, 4], false, [104, 105]⟩, ⟨0x89, none, false, []⟩,
        ⟨0x88, none, false, []⟩].flatMap Frame.events = results.flatMap WsResult.events ++ left := by
  obtain ⟨⟨results, next, after, left, reads, told, -⟩, -⟩ :=
    @websocket_frames [] 0 0 0 [⟨0x81, some [1, 2, 3, 4], false, [104, 105]⟩,
      ⟨0x89, none, false, []⟩, ⟨0x88, none, false, []⟩] (by
        intro f member
        fin_cases member
        · exact ⟨by decide, by decide, by decide, by simp⟩
        · exact ⟨by decide, by decide, by decide, by simp⟩
        · exact ⟨by decide, by decide, by decide, by simp⟩)
      { rest := [⟨0x81, some [1, 2, 3, 4], false, [104, 105]⟩, ⟨0x89, none, false, []⟩,
          ⟨0x88, none, false, []⟩].flatMap Frame.encode, answers := [2, 3] } rfl [1, 5, 5]
      (by decide) (by
        intro made member
        simp only [attempted] at member
        fin_cases member
        · refine .of_continues (fun same => absurd same (by decide)) rfl ?_
          exact .of_returns (fun same => absurd same (by decide)) rfl
        · refine .of_continues (fun same => absurd same (by decide)) rfl ?_
          exact .of_returns (fun same => absurd same (by decide)) rfl
        · refine .of_continues (fun same => absurd same (by decide)) rfl ?_
          refine .of_continues (fun _ some_ => absurd rfl some_) rfl ?_
          refine .of_continues (fun same => absurd same (by decide)) rfl ?_
          exact .of_returns (fun _ some_ => absurd rfl some_) rfl)
  exact ⟨results, next, after, left, reads, told⟩

/-- The first byte of a ping is returned as data by a read of one byte, and the recorded type of the
text frame before it is gone. -/
theorem websocket_frames_ping :
    (∃ next after,
      websocketReads (websocketMakeNew [] 0 0 0)
        { rest := (⟨0x89, none, false, [1, 2]⟩ : Frame).encode, answers := [] } [1] =
        some ([.bytes [1]], next, after)) ∧
      (⟨0x89, none, false, [1, 2]⟩ : Frame).events = [] ∧
    ∃ results next after,
      websocketReads (websocketMakeNew [] 0 0 0)
        { rest := [⟨0x81, none, false, [1]⟩, ⟨0x89, none, false, []⟩].flatMap Frame.encode,
          answers := [] } [1, 1] = some (results, next, after) ∧
      next.wsFlags = 0x89 ∧
      [⟨0x81, none, false, [1]⟩, ⟨0x89, none, false, []⟩].foldl Frame.record 0 = 0x81 :=
  ⟨⟨_, _, rfl⟩, rfl, _, _, _, rfl, rfl, rfl⟩

end MultiPython.Io
