import MultiPython.Str.Vstr

/-!
# Files in memory

`py/objstringio.c`, and of `py/stream.c` what `write` and `seek` do before. The buffer is at first
the one of the string that the file is made from, and is copied before the first write. The
reference is a list of bytes and a position.
-/

namespace MultiPython.Io

open Logic Str List Option

/-- What is raised. -/
inductive Failure where
  | memoryError
  | overflowError
  | efbig
  | einval
deriving DecidableEq, Repr

/-- What a call gives back. -/
inductive StringioResponse where
  | raised (failure : Failure)
  | bytes (read : List Nat)
  | count (written : Nat)
  | position (pos : Nat)
deriving DecidableEq, Repr

/-- `mp_obj_stringio_t`. A fixed buffer is the memory of the string object `origin`. -/
structure StringIo where
  vstr : Vstr
  pos : Nat
  origin : List Nat
deriving DecidableEq, Repr

/-- The memory that `vstr->buf` points to. -/
def StringIo.buf (o : StringIo) : List Nat := if o.vstr.fixedBuf then o.origin else o.vstr.buf

/-- The memory that `vstr->buf` points to becomes another. -/
def StringIo.withBuf (o : StringIo) (buf : List Nat) : StringIo :=
  if o.vstr.fixedBuf then { o with origin := buf } else { o with vstr := { o.vstr with buf := buf } }

variable (wordBits : Nat)

def stringioRead (o : StringIo) (size : Nat) : Option (StringioResponse × StringIo) :=
  if o.vstr.len ≤ o.pos then some (.bytes [], o)
  else
    let remaining := o.vstr.len - o.pos
    let size := if size > remaining then remaining else size
    (loadAt o.buf o.pos size).map fun read => (.bytes read, { o with pos := o.pos + size })

/-- `stringio_copy_on_write`; `some none` if it raises. -/
def stringioCopyOnWrite (o : StringIo) (renewal : Renewal) : Option (Option StringIo) :=
  match mRenew [] o.vstr.len renewal with
  | none => some none
  | some buf => do
      let contents ← loadAt o.buf 0 o.vstr.len
      let copy ← storeAt buf 0 contents
      some (some { o with vstr := { o.vstr with buf := copy, fixedBuf := false } })

/-- The hole that a seek past the end leaves is cleared. -/
def stringioClearHole (o : StringIo) (orgLen : Nat) : Option (List Nat) :=
  if o.pos > orgLen then storeAt o.buf orgLen (List.replicate (o.pos - orgLen) 0) else some o.buf

/-- `stringio_write`, when the buffer is large enough. -/
def stringioStore (o : StringIo) (orgLen newPos : Nat) (bytes : List Nat) :
    Option (StringioResponse × StringIo) := do
  let cleared ← stringioClearHole o orgLen
  let buf ← storeAt cleared o.pos bytes
  let len := if newPos > o.vstr.len then newPos else o.vstr.len
  let written := o.withBuf buf
  some (.count bytes.length, { written with pos := newPos, vstr := { written.vstr with len := len } })

/-- `stringio_write`, after the buffer has been copied. -/
def stringioWriteOwned (o : StringIo) (bytes : List Nat) (renewal : Renewal) :
    Option (StringioResponse × StringIo) :=
  let newPos := (o.pos + bytes.length) % 2 ^ wordBits
  if newPos < bytes.length then some (.raised .efbig, o)
  else if newPos > o.vstr.alloc then
    -- Take all that is already allocated, and add more.
    let full := { o.vstr with len := o.vstr.alloc }
    match vstrAddBlank wordBits full (newPos - o.vstr.alloc) renewal with
    | none => some (.raised .memoryError, { o with vstr := full })
    | some grown => stringioStore { o with vstr := grown } o.vstr.len newPos bytes
  else stringioStore o o.vstr.len newPos bytes

/-- `stringio_write`, with the answers of the allocator to the copy and to the growth. -/
def stringioWrite (o : StringIo) (bytes : List Nat) (copying growing : Renewal) :
    Option (StringioResponse × StringIo) :=
  if o.vstr.fixedBuf then
    match stringioCopyOnWrite o copying with
    | none => none
    | some none => some (.raised .memoryError, o)
    | some (some copy) => stringioWriteOwned wordBits copy bytes growing
  else stringioWriteOwned wordBits o bytes growing

/-- `mp_stream_rw` for a file that takes everything at once. -/
def streamWrite (o : StringIo) (bytes : List Nat) (copying growing : Renewal) :
    Option (StringioResponse × StringIo) :=
  if bytes.length > 0 then stringioWrite wordBits o bytes copying growing else some (.count 0, o)

/-- `MP_STREAM_SEEK` in `stringio_ioctl`. -/
def stringioSeek (o : StringIo) (offset whence : Int) : StringioResponse × StringIo :=
  let ref := if whence = 1 then o.pos else if whence = 2 then o.vstr.len else 0
  let newPos := ((ref + offset) % 2 ^ wordBits).toNat
  if whence ≠ 0 ∧ offset < 0 then
    let newPos := if newPos > ref then 0 else newPos
    (.position newPos, { o with pos := newPos })
  else if newPos < ref then (.raised .einval, o)
  else (.position newPos, { o with pos := newPos })

/-- `stream_seek`, with the offset as an integer object. -/
def streamSeek (o : StringIo) (offset whence : Int) : StringioResponse × StringIo :=
  if 2 * offset < -2 ^ wordBits ∨ 2 ^ wordBits ≤ 2 * offset then (.raised .overflowError, o)
  else if whence = 0 ∧ offset < 0 then (.raised .einval, o)
  else stringioSeek wordBits o offset whence

def stringioGetvalue (o : StringIo) : Option (List Nat) := loadAt o.buf 0 o.vstr.len

/-- What a file is made from. -/
inductive StringioArg where
  | size (sz : Nat)
  | string (str : List Nat)
  | buffer (bytes : List Nat)

/-- `stringio_make_new`; `some none` if it raises. -/
def stringioMakeNew (arg : StringioArg) (renewal : Renewal) : Option (Option StringIo) :=
  match arg with
  | .size sz => some ((vstrInit sz renewal).map fun v => { vstr := v, pos := 0, origin := [] })
  | .string str =>
    some (some {
      vstr := { alloc := str.length, len := str.length, buf := [], fixedBuf := true }
      pos := 0
      origin := str })
  | .buffer bytes =>
    match vstrInit bytes.length renewal with
    | none => some none
    | some v =>
      (stringioWrite wordBits { vstr := v, pos := 0, origin := [] } bytes none none).map
        fun (_, written) => some { written with pos := 0 }

/-- The calls of a file. -/
inductive StringioCall where
  | read (size : Nat)
  | write (bytes : List Nat) (copying growing : Renewal)
  | seek (offset whence : Int)

/-- Perform a call. -/
def stringioCall (o : StringIo) : StringioCall → Option (StringioResponse × StringIo)
  | .read size => stringioRead o size
  | .write bytes copying growing => streamWrite wordBits o bytes copying growing
  | .seek offset whence => some (streamSeek wordBits o offset whence)

/-! ## Bytes with a position -/

/-- A list of bytes and a position, which may be anywhere. -/
@[ext]
structure ByteFile where
  content : List Nat
  pos : Nat
deriving DecidableEq, Repr

namespace ByteFile

/-- Bytes at a position, behind zeros if it is past the end. -/
def overwritten (content : List Nat) (pos : Nat) (bytes : List Nat) : List Nat :=
  (content ++ List.replicate (pos - content.length) 0).take pos ++ bytes ++
    content.drop (pos + bytes.length)

/-- What an offset is counted from. -/
def ref (f : ByteFile) (whence : Int) : Nat :=
  if whence = 1 then f.pos else if whence = 2 then f.content.length else 0

/-- Perform a call that is not refused. -/
def perform (f : ByteFile) : StringioCall → StringioResponse × ByteFile
  | .read size =>
    let read := (f.content.drop f.pos).take size
    (.bytes read, { f with pos := f.pos + read.length })
  | .write bytes _ _ =>
    if bytes = [] then (.count 0, f)
    else
      (.count bytes.length,
        { content := overwritten f.content f.pos bytes, pos := f.pos + bytes.length })
  | .seek offset whence =>
    let pos := (f.ref whence + offset).toNat
    (.position pos, { f with pos := pos })

/-- The reasons to refuse a call: there is no memory, the position after a write or a seek is not a
word, the offset is not a machine integer, or one from the start is negative. -/
def Refuses (f : ByteFile) : StringioCall → Failure → Prop
  | .write _ copying growing, .memoryError => copying = none ∨ growing = none
  | .write bytes _ _, .efbig => 2 ^ wordBits ≤ f.pos + bytes.length
  | .seek offset _, .overflowError => 2 * offset < -2 ^ wordBits ∨ 2 ^ wordBits ≤ 2 * offset
  | .seek offset whence, .einval => whence = 0 ∧ offset < 0 ∨ 2 ^ wordBits ≤ f.ref whence + offset
  | _, _ => False

end ByteFile

/-- The bytes and the position that a file stands for. -/
def StringIo.file (o : StringIo) : ByteFile := { content := o.buf.take o.vstr.len, pos := o.pos }

/-- What a call should do. -/
structure StringioMeets (o : StringIo) (call : StringioCall) (response : StringioResponse)
    (next : StringIo) : Prop where
  file : (response, next.file) = o.file.perform call ∨
    ∃ failure, response = .raised failure ∧ o.file.Refuses wordBits call failure ∧
      next.file = o.file
  getvalue : stringioGetvalue next = some next.file.content
  origin : next.origin = o.origin

/-- A write has room if it ends inside of the buffer, or does not end in a word, or the buffer is
rounded to a size that is large enough. If there is no memory for that, nothing may be allocated
behind the contents. -/
def StringIo.HasRoom (o : StringIo) (bytes : List Nat) (growing : Renewal) : Prop :=
  let newPos := o.pos + bytes.length
  let newAlloc := roundAlloc wordBits ((newPos + 16) % 2 ^ wordBits)
  newPos ≤ o.vstr.alloc ∨ 2 ^ wordBits ≤ newPos ∨
    match growing with
    | none => o.vstr.len = o.vstr.alloc ∧ 0 < newAlloc
    | some _ => newPos ≤ newAlloc

/-- The size of what is written is a word, and there is room for it, or the buffer cannot be
copied. -/
def StringIo.Fits (o : StringIo) : StringioCall → Prop
  | .write bytes copying growing =>
    bytes.length < 2 ^ wordBits ∧
      (bytes = [] ∨ (o.vstr.fixedBuf = true ∧ copying = none ∧ 0 < o.vstr.len) ∨
        o.HasRoom wordBits bytes growing)
  | _ => True

/-- The file stands for bytes with a position. A fixed buffer is full. -/
structure StringIo.Holds (o : StringIo) (f : ByteFile) : Prop where
  alloc : o.vstr.alloc = o.buf.length
  len : o.vstr.len = f.content.length
  inside : o.vstr.len ≤ o.vstr.alloc
  word : o.vstr.alloc < 2 ^ wordBits
  contents : f.content <+: o.buf
  pos : o.pos = f.pos
  posWord : o.pos < 2 ^ wordBits
  borrowed : o.vstr.fixedBuf = true → o.vstr.len = o.vstr.alloc

section Calls

variable {wordBits} {o : StringIo} {f : ByteFile}

section

variable (holds : o.Holds wordBits f)

include holds

theorem StringIo.Holds.content :
    o.buf.take o.vstr.len = f.content := by
  rw [holds.len]
  exact (prefix_iff_eq_take.mp holds.contents).symm

theorem StringIo.Holds.file : o.file = f :=
  ByteFile.ext holds.content holds.pos

theorem StringIo.Holds.getvalue :
    stringioGetvalue o = some f.content := by
  have inside := holds.inside
  rw [stringioGetvalue, loadAt, if_pos (by have alloc := holds.alloc; omega), drop_zero,
    holds.content]

theorem StringIo.Holds.movedTo {pos : Nat} (word : pos < 2 ^ wordBits) :
    ({ o with pos := pos } : StringIo).Holds wordBits { f with pos := pos } :=
  ⟨holds.alloc, holds.len, holds.inside, holds.word, holds.contents, rfl, word, holds.borrowed⟩

theorem stringioRead_spec (size : Nat) :
    ∃ next, stringioRead o size = some ((f.perform (.read size)).1, next) ∧
      next.Holds wordBits (f.perform (.read size)).2 ∧ next.origin = o.origin := by
  have len := holds.len
  have pos := holds.pos
  have inside := holds.inside
  have word := holds.word
  have alloc := holds.alloc
  simp only [stringioRead, ByteFile.perform]
  by_cases atEnd : o.vstr.len ≤ o.pos
  · have nothing : f.content.drop f.pos = [] := drop_of_length_le (by omega)
    rw [if_pos atEnd, nothing, take_nil]
    exact ⟨o, rfl, holds, rfl⟩
  · have clamped : (if size > o.vstr.len - o.pos then o.vstr.len - o.pos else size) =
        ((f.content.drop f.pos).take size).length := by
      rw [length_take, length_drop]
      split_ifs <;> omega
    have loaded : loadAt o.buf o.pos ((f.content.drop f.pos).take size).length =
        some ((f.content.drop f.pos).take size) := by
      have front : (f.content.take f.pos).length = o.pos := by
        rw [length_take]
        omega
      rw [← front]
      apply loadAt_contents
      have split : f.content.take f.pos ++ (f.content.drop f.pos).take size <+: f.content := by
        conv => rhs; rw [← take_append_drop f.pos f.content]
        exact (prefix_append_right_inj _).mpr ( take_prefix _ _)
      exact split.trans holds.contents
    rw [if_neg atEnd, clamped, loaded]
    refine ⟨_, rfl, ?_, rfl⟩
    have count : ((f.content.drop f.pos).take size).length ≤ f.content.length - f.pos := by
      rw [length_take, length_drop]
      omega
    rw [pos]
    exact holds.movedTo (by omega)

/-- The copy of a string that is written to stands for the same bytes. -/
theorem stringioCopyOnWrite_spec (borrowed : o.vstr.fixedBuf = true) (renewal : Renewal) :
    (stringioCopyOnWrite o renewal = some none ∧ renewal = none ∧ 0 < o.vstr.len) ∨
      ∃ copy, stringioCopyOnWrite o renewal = some (some copy) ∧ copy.Holds wordBits f ∧
        copy.vstr.fixedBuf = false ∧ copy.origin = o.origin ∧ copy.vstr.len = copy.vstr.alloc ∧
        copy.vstr.alloc = o.vstr.alloc ∧ (renewal = none → o.vstr.len = 0) := by
  have len := holds.len
  have alloc := holds.alloc
  have full := holds.borrowed borrowed
  have loaded : loadAt o.buf 0 o.vstr.len = some f.content := holds.getvalue
  have copies : ∀ buf : List Nat, buf.length = o.vstr.len →
      storeAt buf 0 f.content = some f.content := by
    intro buf length
    exact storeAt_whole (by omega)
  have copyHolds : StringIo.Holds wordBits
      { o with vstr := { o.vstr with buf := f.content, fixedBuf := false } } f :=
    ⟨full.symm.trans len, len, holds.inside, holds.word, prefix_refl _, holds.pos,
      holds.posWord, fun same => by cases same⟩
  rcases Nat.eq_zero_or_pos o.vstr.len with zero | positive
  · refine .inr ⟨_, ?_, copyHolds, rfl, rfl, full, rfl, fun _ => zero⟩
    simp only [stringioCopyOnWrite, mRenew, if_pos zero, loaded, copies [] zero.symm,
      bind_eq_bind, bind_some]
  · cases renewed : mRenew [] o.vstr.len renewal with
    | none =>
      refine .inl ⟨by simp only [stringioCopyOnWrite, renewed], ?_, positive⟩
      rw [mRenew, if_neg (by omega), map_eq_none_iff] at renewed
      exact renewed
    | some buf =>
      obtain ⟨fill, isResized⟩ := mRenew_eq_some positive renewed
      have length : buf.length = o.vstr.len := by rw [isResized, length_resized]
      refine .inr ⟨_, ?_, copyHolds, rfl, rfl, full, rfl, ?_⟩
      · simp only [stringioCopyOnWrite, renewed, loaded, copies buf length, bind_eq_bind,
          bind_some]
      · rintro rfl
        rw [mRenew, if_neg (by omega)] at renewed
        cases renewed

end

theorem ByteFile.length_overwritten (content : List Nat) (pos : Nat) (bytes : List Nat) :
    (overwritten content pos bytes).length = max content.length (pos + bytes.length) := by
  simp only [overwritten, length_append, length_take, length_replicate,
    length_drop]
  omega

theorem stringioClearHole_spec {content : List Nat} (holds : content <+: o.buf)
    (inside : o.pos ≤ o.buf.length) :
    ∃ cleared, stringioClearHole o content.length = some cleared ∧
      cleared.length = o.buf.length ∧
      content ++ List.replicate (o.pos - content.length) 0 <+: cleared := by
  unfold stringioClearHole
  by_cases hole : o.pos > content.length
  · obtain ⟨cleared, stored, contents, length⟩ := storeAt_contents holds
      (by rw [length_replicate]; omega :
        content.length + (replicate (o.pos - content.length) 0).length ≤ o.buf.length)
    exact ⟨cleared, by rw [if_pos hole, stored], length, contents⟩
  · refine ⟨o.buf, if_neg hole, rfl, ?_⟩
    rw [Nat.sub_eq_zero_of_le (by omega), replicate_zero, append_nil]
    exact holds

/-- Bytes stored behind the hole that has been cleared overwrite the contents. -/
theorem stringioStore_spec (owned : o.vstr.fixedBuf = false) (alloc : o.vstr.alloc = o.buf.length)
    (word : o.vstr.alloc < 2 ^ wordBits) {content bytes : List Nat} (holds : content <+: o.buf)
    (room : o.pos + bytes.length ≤ o.vstr.alloc) (large : content.length ≤ o.vstr.alloc)
    (posWord : o.pos + bytes.length < 2 ^ wordBits)
    (len : o.vstr.len = content.length ∨ o.vstr.len = max content.length (o.pos + bytes.length)) :
    ∃ next, stringioStore o content.length (o.pos + bytes.length) bytes =
        some (.count bytes.length, next) ∧
      next.Holds wordBits
        { content := ByteFile.overwritten content o.pos bytes, pos := o.pos + bytes.length } ∧
      next.origin = o.origin := by
  obtain ⟨cleared, clears, clearedLength, padded⟩ := stringioClearHole_spec holds
    (by omega : o.pos ≤ o.buf.length)
  obtain ⟨buf, stored, length, contents⟩ := @storeAt_within _ cleared _ bytes o.pos padded
    (by rw [length_append, length_replicate]; omega) (by omega)
  have behind : (content ++ replicate (o.pos - content.length) 0).drop (o.pos + bytes.length) =
      content.drop (o.pos + bytes.length) := by
    rw [drop_append, drop_replicate, Nat.sub_eq_zero_of_le (by omega),
      replicate_zero, append_nil]
  rw [behind] at contents
  have newLen : (if o.pos + bytes.length > o.vstr.len then o.pos + bytes.length else o.vstr.len) =
      max content.length (o.pos + bytes.length) := by
    split_ifs <;> omega
  refine ⟨{ o with
    pos := o.pos + bytes.length
    vstr := { o.vstr with buf := buf, len := max content.length (o.pos + bytes.length) } },
    ?_, ?_, rfl⟩
  · simp only [stringioStore, clears, stored, newLen, bind_eq_bind, bind_some,
      StringIo.withBuf, owned, Bool.false_eq_true, if_false]
  · refine ⟨?_, (ByteFile.length_overwritten _ _ _).symm, ?_, word, ?_, rfl, posWord, ?_⟩
    · simp only [StringIo.buf, owned, Bool.false_eq_true, if_false, length, clearedLength, alloc]
    · show max content.length (o.pos + bytes.length) ≤ o.vstr.alloc
      omega
    · simp only [StringIo.buf, owned, Bool.false_eq_true, if_false]
      exact contents
    · intro borrowed
      rw [owned] at borrowed
      cases borrowed

/-- How a call on a file that stands for some bytes may end. -/
def Ends (wordBits : Nat) (o : StringIo) (f : ByteFile) (call : StringioCall)
    (done : Option (StringioResponse × StringIo)) : Prop :=
  ∃ response next, done = some (response, next) ∧ next.origin = o.origin ∧
    ((response = (f.perform call).1 ∧ next.Holds wordBits (f.perform call).2) ∨
      ∃ failure, response = .raised failure ∧ f.Refuses wordBits call failure ∧
        next.Holds wordBits f)

/-- What a write to a file with a buffer of its own does. -/
theorem stringioWriteOwned_spec (holds : o.Holds wordBits f) (owned : o.vstr.fixedBuf = false)
    {bytes : List Nat} (some_ : bytes ≠ []) (size : bytes.length < 2 ^ wordBits)
    {growing : Renewal} (room : o.HasRoom wordBits bytes growing) (copying : Renewal) :
    Ends wordBits o f (.write bytes copying growing)
      (stringioWriteOwned wordBits o bytes growing) := by
  have len := holds.len
  have pos := holds.pos
  have inside := holds.inside
  have alloc := holds.alloc
  have posWord := holds.posWord
  have positive : 0 < bytes.length := length_pos_iff.mpr some_
  simp only [stringioWriteOwned]
  by_cases word : o.pos + bytes.length < 2 ^ wordBits
  · rw [Nat.mod_eq_of_lt word, if_neg (by omega)]
    by_cases fits : o.pos + bytes.length > o.vstr.alloc
    · rw [if_pos fits]
      have enough : (o.vstr.alloc + (o.pos + bytes.length - o.vstr.alloc)) = o.pos + bytes.length := by
        omega
      have room := (room.resolve_left (by omega)).resolve_left (by omega)
      generalize isNew : roundAlloc wordBits ((o.pos + bytes.length + 16) % 2 ^ wordBits) = newAlloc
        at room
      simp only [vstrAddBlank, vstrEnsureExtra, enough, Nat.mod_eq_of_lt word, if_pos fits, owned,
        Bool.false_eq_true, if_false, isNew]
      cases growing with
      | none =>
        obtain ⟨full, some_⟩ := room
        simp only [mRenew, if_neg (by omega : ¬newAlloc = 0), map_none]
        refine ⟨_, _, rfl, rfl, .inr ⟨_, rfl, .inr rfl, ?_⟩⟩
        have same : (⟨o.vstr.alloc, o.vstr.alloc, o.vstr.buf, false⟩ : Vstr) = o.vstr := by
          cases isVstr : o.vstr with
          | mk alloc len buf fixedBuf =>
            rw [isVstr] at full owned
            rw [Vstr.mk.injEq]
            exact ⟨rfl, full.symm, rfl, owned.symm⟩
        rw [same]
        exact holds
      | some fill =>
        have room : o.pos + bytes.length ≤ newAlloc := room
        simp only [mRenew, if_neg (by omega : ¬newAlloc = 0), map_some, enough,
          Nat.mod_eq_of_lt word]
        have newWord : newAlloc < 2 ^ wordBits := isNew ▸ Nat.mod_lt _ (Nat.two_pow_pos _)
        have contents : f.content <+: o.vstr.buf := by
          have contents := holds.contents
          rwa [StringIo.buf, owned] at contents
        obtain ⟨next, stores, nextHolds, origin⟩ := @stringioStore_spec wordBits
          { o with vstr := {
              alloc := newAlloc
              len := o.pos + bytes.length
              buf := resized fill newAlloc o.vstr.buf
              fixedBuf := false } }
          rfl (length_resized _ _ _).symm newWord f.content bytes
          (prefix_resized contents (by omega) fill) room (by show _ ≤ newAlloc; omega) word
          (.inr (by show o.pos + bytes.length = max _ (o.pos + bytes.length); omega))
        rw [← len] at stores
        refine ⟨_, next, stores, origin, .inl ?_⟩
        rw [ByteFile.perform, if_neg some_, ← pos]
        exact ⟨rfl, nextHolds⟩
    · rw [if_neg fits]
      obtain ⟨next, stores, nextHolds, origin⟩ := stringioStore_spec owned alloc holds.word
        holds.contents (by omega) (by omega) word (.inl len)
      rw [← len] at stores
      refine ⟨_, next, stores, origin, .inl ?_⟩
      rw [ByteFile.perform, if_neg some_, ← pos]
      exact ⟨rfl, nextHolds⟩
  · have wraps : (o.pos + bytes.length) % 2 ^ wordBits < bytes.length := by
      rw [Nat.mod_eq_sub_mod (by omega), Nat.mod_eq_of_lt (by omega)]
      omega
    rw [if_pos wraps]
    exact ⟨_, o, rfl, rfl, .inr ⟨.efbig, rfl, by show _ ≤ f.pos + _; omega, holds⟩⟩

theorem streamWrite_spec (holds : o.Holds wordBits f) {bytes : List Nat} {copying growing : Renewal}
    (fits : o.Fits wordBits (.write bytes copying growing)) :
    Ends wordBits o f (.write bytes copying growing)
      (streamWrite wordBits o bytes copying growing) := by
  obtain ⟨size, fits⟩ := fits
  by_cases empty : bytes = []
  · refine ⟨_, o, if_neg (by simp [empty]), rfl, .inl ?_⟩
    rw [ByteFile.perform, if_pos empty]
    exact ⟨rfl, holds⟩
  · have room := fits.resolve_left empty
    rw [streamWrite, if_pos (length_pos_iff.mpr empty), stringioWrite]
    cases borrowed : o.vstr.fixedBuf with
    | false =>
      have room := room.resolve_left fun copies => by
        rw [borrowed] at copies
        cases copies.1
      exact stringioWriteOwned_spec holds borrowed empty size room copying
    | true =>
      rcases stringioCopyOnWrite_spec holds borrowed copying with
        ⟨raises, noMemory, -⟩ | ⟨copy, copies, copyHolds, owned, origin, full, alloc, noNeed⟩
      · rw [raises]
        exact ⟨_, o, rfl, rfl, .inr ⟨_, rfl, .inl noMemory, holds⟩⟩
      · have room := room.resolve_left fun fails => by
          have zero := noNeed fails.2.1
          omega
        have copyRoom : copy.HasRoom wordBits bytes growing := by
          have samePos : copy.pos = o.pos := copyHolds.pos.trans holds.pos.symm
          have sameLen : copy.vstr.len = o.vstr.len := copyHolds.len.trans holds.len.symm
          simp only [StringIo.HasRoom, samePos, sameLen, alloc]
          exact room
        simp only [copies, if_true]
        obtain ⟨response, next, writes, kept, ends⟩ :=
          stringioWriteOwned_spec copyHolds owned empty size copyRoom copying
        exact ⟨response, next, writes, kept.trans origin, ends⟩

/-- A seek goes to the position, or to the start if that is before it, or is refused. -/
theorem stringioSeek_spec {offset whence : Int} {ref : Nat}
    (isRef : ref = if whence = 1 then o.pos else if whence = 2 then o.vstr.len else 0)
    (refWord : ref < 2 ^ wordBits) (low : -2 ^ wordBits ≤ 2 * offset)
    (high : 2 * offset < 2 ^ wordBits) (fromStart : whence = 0 → 0 ≤ offset) :
    (stringioSeek wordBits o offset whence = (.raised .einval, o) ∧
        2 ^ wordBits ≤ ref + offset) ∨
      ∃ pos, pos = (ref + offset).toNat ∧ pos < 2 ^ wordBits ∧
        stringioSeek wordBits o offset whence = (.position pos, { o with pos := pos }) := by
  have power : ((2 ^ wordBits : Nat) : Int) = 2 ^ wordBits := by push_cast; rfl
  simp only [stringioSeek, ← isRef]
  rw [← power] at low high ⊢
  generalize 2 ^ wordBits = word at refWord low high ⊢
  by_cases negative : offset < 0
  · have whenceSome : whence ≠ 0 := fun same => by have := fromStart same; omega
    rw [if_pos ⟨whenceSome, negative⟩]
    refine .inr ⟨(ref + offset).toNat, rfl, by omega, ?_⟩
    have clamped : (if ((ref + offset) % (word : Int)).toNat > ref then 0
        else ((ref + offset) % (word : Int)).toNat) = (ref + offset).toNat := by
      by_cases inside : 0 ≤ ref + offset
      · rw [Int.emod_eq_of_lt inside (by omega), if_neg (by omega)]
      · have wraps : (ref + offset) % (word : Int) = ref + offset + word := by
          rw [← Int.add_emod_right, Int.emod_eq_of_lt (by omega) (by omega)]
        rw [wraps, if_pos (by omega)]
        omega
    rw [clamped]
  · rw [if_neg fun both => negative both.2]
    by_cases small : ref + offset < word
    · rw [Int.emod_eq_of_lt (by omega) small, if_neg (by omega)]
      exact .inr ⟨_, rfl, by omega, rfl⟩
    · have wraps : (ref + offset) % (word : Int) = ref + offset - word := by
        rw [← Int.sub_emod_right, Int.emod_eq_of_lt (by omega) (by omega)]
      rw [wraps, if_pos (by omega)]
      exact .inl ⟨rfl, by omega⟩

theorem streamSeek_spec (holds : o.Holds wordBits f) (offset whence : Int) :
    Ends wordBits o f (.seek offset whence) (some (streamSeek wordBits o offset whence)) := by
  have isRef : f.ref whence =
      if whence = 1 then o.pos else if whence = 2 then o.vstr.len else 0 := by
    rw [ByteFile.ref, holds.pos, holds.len]
  have refWord : f.ref whence < 2 ^ wordBits := by
    have inside := holds.inside
    have word := holds.word
    have posWord := holds.posWord
    rw [isRef]
    split_ifs <;> omega
  have raises : ∀ failure, streamSeek wordBits o offset whence = (.raised failure, o) →
      f.Refuses wordBits (.seek offset whence) failure →
      Ends wordBits o f (.seek offset whence) (some (streamSeek wordBits o offset whence)) := by
    intro failure same refuses
    exact ⟨_, _, congrArg some same, rfl, .inr ⟨failure, rfl, refuses, holds⟩⟩
  by_cases machine : 2 * offset < -2 ^ wordBits ∨ 2 ^ wordBits ≤ 2 * offset
  · exact raises .overflowError (if_pos machine) machine
  by_cases negative : whence = 0 ∧ offset < 0
  · exact raises .einval (by rw [streamSeek, if_neg machine, if_pos negative]) (.inl negative)
  have seeks : streamSeek wordBits o offset whence = stringioSeek wordBits o offset whence := by
    rw [streamSeek, if_neg machine, if_neg negative]
  rcases @stringioSeek_spec _ o offset whence _ isRef refWord (by omega) (by omega)
    (fun same => by by_contra less; exact negative ⟨same, by omega⟩) with
    ⟨overflows, large⟩ | ⟨pos, rfl, word, moves⟩
  · exact raises .einval (seeks.trans overflows) (.inr large)
  · exact ⟨_, _, congrArg some (seeks.trans moves), rfl, .inl ⟨rfl, holds.movedTo word⟩⟩

theorem stringioCall_spec (holds : o.Holds wordBits f) {call : StringioCall}
    (fits : o.Fits wordBits call) : Ends wordBits o f call (stringioCall wordBits o call) := by
  cases call with
  | read size =>
    obtain ⟨next, reads, nextHolds, origin⟩ := stringioRead_spec holds size
    exact ⟨_, next, reads, origin, .inl ⟨rfl, nextHolds⟩⟩
  | write bytes copying growing => exact streamWrite_spec holds fits
  | seek offset whence => exact streamSeek_spec holds offset whence

/-- The bytes that a file is made from. -/
def StringioArg.content : StringioArg → List Nat
  | .size _ => []
  | .string str => str
  | .buffer bytes => bytes

/-- The sizes of objects and of blocks are words. -/
def StringioArg.IsWord (wordBits : Nat) : StringioArg → Prop
  | .size sz => max sz 1 < 2 ^ wordBits
  | .string str => str.length < 2 ^ wordBits
  | .buffer bytes => max bytes.length 1 < 2 ^ wordBits

theorem StringIo.Holds.ofVstr {v : Vstr} {built : List Nat} (holds : v.Holds wordBits built)
    (origin : List Nat) :
    StringIo.Holds wordBits { vstr := v, pos := 0, origin := origin }
      { content := built, pos := 0 } where
  alloc := by
    simp only [StringIo.buf, holds.growable, Bool.false_eq_true, if_false, holds.alloc]
  len := holds.len
  inside := holds.inside
  word := holds.word
  contents := by
    simp only [StringIo.buf, holds.growable, Bool.false_eq_true, if_false]
    exact holds.contents
  pos := rfl
  posWord := Nat.two_pow_pos _
  borrowed := fun fixed => by
    rw [holds.growable] at fixed
    cases fixed

/-- A file that has been made stands for what it is made from. -/
theorem stringioMakeNew_holds {arg : StringioArg} (word : arg.IsWord wordBits) (renewal : Renewal) :
    ∃ made, stringioMakeNew wordBits arg renewal = some made ∧
      ∀ o ∈ made, o.Holds wordBits { content := arg.content, pos := 0 } := by
  cases arg with
  | size sz =>
    refine ⟨_, rfl, fun o isMade => ?_⟩
    obtain ⟨v, made, rfl⟩ := map_eq_some_iff.mp isMade
    exact .ofVstr (vstrInit_holds word made).1 []
  | string str =>
    refine ⟨_, rfl, fun o isMade => ?_⟩
    cases isMade
    exact ⟨rfl, rfl, Nat.le_refl _, word, prefix_refl _, rfl, Nat.two_pow_pos _, fun _ => rfl⟩
  | buffer bytes =>
    cases made : vstrInit bytes.length renewal with
    | none => exact ⟨none, by simp only [stringioMakeNew, made], fun o isMade => by cases isMade⟩
    | some v =>
      obtain ⟨vHolds, alloc⟩ := vstrInit_holds word made
      have fileHolds := StringIo.Holds.ofVstr vHolds []
      have word : max bytes.length 1 < 2 ^ wordBits := word
      obtain ⟨next, stores, nextHolds, -⟩ := @stringioStore_spec wordBits
        { vstr := v, pos := 0, origin := [] } vHolds.growable fileHolds.alloc vHolds.word [] bytes
        fileHolds.contents (by show 0 + _ ≤ v.alloc; omega) (Nat.zero_le _)
        (by show 0 + _ < _; omega) (.inl vHolds.len)
      have len : v.len = 0 := vHolds.len
      have writes : stringioWrite wordBits { vstr := v, pos := 0, origin := [] } bytes none none =
          some (.count bytes.length, next) := by
        rw [stringioWrite, if_neg (by simp [vHolds.growable]), stringioWriteOwned]
        dsimp only
        rw [Nat.mod_eq_of_lt (by omega), if_neg (by omega), if_neg (by omega), len]
        exact stores
      refine ⟨some { next with pos := 0 }, ?_, fun o isMade => ?_⟩
      · simp only [stringioMakeNew, made, writes, map_some]
      · cases isMade
        have written : ByteFile.overwritten [] 0 bytes = bytes := by
          simp [ByteFile.overwritten]
        simp only [written] at nextHolds
        exact nextHolds.movedTo (Nat.two_pow_pos _)

end Calls

end MultiPython.Io
