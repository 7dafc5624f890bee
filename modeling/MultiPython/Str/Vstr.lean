import MultiPython.Logic.Buffer
import MultiPython.Logic.Calls

/-!
# The string builder

`py/vstr.c`. Sizes are computed in words of `wordBits` bits, and rounded with a mask of 32 bits. A
function that reads or writes outside of the buffer has no result; one that asks for memory gets a
new buffer with anything behind the old contents, or raises.
-/

namespace MultiPython.Str

open Logic List Option

/-- `vstr_t`. -/
structure Vstr where
  alloc : Nat
  len : Nat
  buf : List Nat
  fixedBuf : Bool
deriving DecidableEq, Repr

/-- What the allocator answers: nothing, or a block with anything in it. -/
abbrev Renewal := Option (Nat → Nat)

/-- How a function of the builder ends. -/
inductive VstrEnd where
  | raised
  | returned
deriving DecidableEq, Repr

variable (wordBits : Nat)

def roundAlloc (a : Nat) : Nat := ((a &&& 0xFFFFFFF8) + 8) % 2 ^ wordBits

/-- `m_renew`: a block of no bytes is always there. -/
def mRenew (buf : List Nat) (newSize : Nat) (renewal : Renewal) : Option (List Nat) :=
  if newSize = 0 then some [] else renewal.map fun fill => resized fill newSize buf

def vstrInit (alloc : Nat) (renewal : Renewal) : Option Vstr :=
  let alloc := if alloc < 1 then 1 else alloc
  (mRenew [] alloc renewal).map fun buf =>
    { alloc := alloc, len := 0, buf := buf, fixedBuf := false }

/-- `vstr_extend`; nothing if it raises. -/
def vstrExtend (v : Vstr) (size : Nat) (renewal : Renewal) : Option Vstr :=
  if v.fixedBuf then none
  else
    let newAlloc := (v.alloc + size) % 2 ^ wordBits
    (mRenew v.buf newAlloc renewal).map fun buf => { v with alloc := newAlloc, buf := buf }

/-- `vstr_ensure_extra`; nothing if it raises. -/
def vstrEnsureExtra (v : Vstr) (size : Nat) (renewal : Renewal) : Option Vstr :=
  if (v.len + size) % 2 ^ wordBits > v.alloc then
    if v.fixedBuf then none
    else
      let newAlloc := roundAlloc wordBits (((v.len + size) % 2 ^ wordBits + 16) % 2 ^ wordBits)
      (mRenew v.buf newAlloc renewal).map fun buf => { v with alloc := newAlloc, buf := buf }
  else some v

/-- `vstr_add_len`, before anything is stored through the pointer that it returns; nothing if it
raises. -/
def vstrAddBlank (v : Vstr) (len : Nat) (renewal : Renewal) : Option Vstr :=
  (vstrEnsureExtra wordBits v len renewal).map fun grown =>
    { grown with len := (grown.len + len) % 2 ^ wordBits }

/-- `vstr_add_len`, with the bytes that the caller stores through the pointer that it returns. -/
def vstrAddLen (v : Vstr) (bytes : List Nat) (renewal : Renewal) : Option (VstrEnd × Vstr) :=
  match vstrEnsureExtra wordBits v bytes.length renewal with
  | none => some (.raised, v)
  | some grown =>
    (storeAt grown.buf grown.len bytes).map fun buf =>
      (.returned, { grown with len := (grown.len + bytes.length) % 2 ^ wordBits, buf := buf })

/-- The bytes that `vstr_add_char` stores. -/
def charBytes (c : Nat) : List Nat :=
  if c < 0x80 then [c]
  else if c < 0x800 then [(c >>> 6 ||| 0xC0) % 256, (c &&& 0x3F) ||| 0x80]
  else if c < 0x10000 then
    [(c >>> 12 ||| 0xE0) % 256, (c >>> 6 &&& 0x3F) ||| 0x80, (c &&& 0x3F) ||| 0x80]
  else
    [(c >>> 18 ||| 0xF0) % 256, (c >>> 12 &&& 0x3F) ||| 0x80, (c >>> 6 &&& 0x3F) ||| 0x80,
      (c &&& 0x3F) ||| 0x80]

def vstrAddByte (v : Vstr) (b : Nat) (renewal : Renewal) : Option (VstrEnd × Vstr) :=
  vstrAddLen wordBits v [b] renewal

def vstrAddChar (v : Vstr) (c : Nat) (renewal : Renewal) : Option (VstrEnd × Vstr) :=
  vstrAddLen wordBits v (charBytes c) renewal

/-- `vstr_add_strn`, for a string that is not in the buffer. -/
def vstrAddStrn (v : Vstr) (str : List Nat) (renewal : Renewal) : Option (VstrEnd × Vstr) :=
  match vstrEnsureExtra wordBits v str.length renewal with
  | none => some (.raised, v)
  | some grown =>
    (storeAt grown.buf grown.len str).map fun buf =>
      (.returned, { grown with buf := buf, len := (grown.len + str.length) % 2 ^ wordBits })

/-- `vstr_ins_blank_bytes`, with the bytes that the caller stores in the gap. -/
def vstrInsBytes (v : Vstr) (bytePos : Nat) (bytes : List Nat) (renewal : Renewal) :
    Option (VstrEnd × Vstr) :=
  let l := v.len
  let bytePos := if bytePos > l then l else bytePos
  if bytes.length > 0 then
    match vstrEnsureExtra wordBits v bytes.length renewal with
    | none => some (.raised, v)
    | some grown => do
        let tail ← loadAt grown.buf bytePos (l - bytePos)
        let moved ← storeAt grown.buf (bytePos + bytes.length) tail
        let filled ← storeAt moved bytePos bytes
        some (.returned,
          { grown with buf := filled, len := (grown.len + bytes.length) % 2 ^ wordBits })
  else some (.returned, v)

def vstrInsByte (v : Vstr) (bytePos b : Nat) (renewal : Renewal) : Option (VstrEnd × Vstr) :=
  vstrInsBytes wordBits v bytePos [b] renewal

/-- `vstr_ins_char`, which stores one byte. -/
def vstrInsChar (v : Vstr) (charPos chr : Nat) (renewal : Renewal) : Option (VstrEnd × Vstr) :=
  vstrInsBytes wordBits v charPos [chr % 256] renewal

def vstrCutTailBytes (v : Vstr) (len : Nat) : Vstr :=
  if len > v.len then { v with len := 0 } else { v with len := v.len - len }

def vstrCutOutBytes (v : Vstr) (bytePos bytesToCut : Nat) : Option Vstr :=
  let stop := (bytePos + bytesToCut) % 2 ^ wordBits
  if bytePos ≥ v.len then some v
  else if stop ≥ v.len then some { v with len := bytePos }
  else do
    let count := (v.len - bytePos + 2 ^ wordBits - bytesToCut) % 2 ^ wordBits
    let tail ← loadAt v.buf stop count
    let buf ← storeAt v.buf bytePos tail
    some { v with buf := buf, len := (v.len + 2 ^ wordBits - bytesToCut) % 2 ^ wordBits }

def vstrCutHeadBytes (v : Vstr) (bytesToCut : Nat) : Option Vstr :=
  vstrCutOutBytes wordBits v 0 bytesToCut

def vstrNullTerminatedStr (v : Vstr) (renewal : Renewal) : Option (VstrEnd × Vstr) :=
  match if v.alloc = v.len then vstrExtend wordBits v 1 renewal else some v with
  | none => some (.raised, v)
  | some grown => (storeAt grown.buf grown.len [0]).map fun buf =>
    (.returned, { grown with buf := buf })

/-- The calls of a builder; those that may need memory come with what the allocator answers. -/
inductive VstrCall where
  | addLen (bytes : List Nat) (renewal : Renewal)
  | addByte (b : Nat) (renewal : Renewal)
  | addChar (c : Nat) (renewal : Renewal)
  | addStrn (str : List Nat) (renewal : Renewal)
  | insByte (bytePos b : Nat) (renewal : Renewal)
  | insChar (charPos chr : Nat) (renewal : Renewal)
  | cutHeadBytes (bytesToCut : Nat)
  | cutTailBytes (len : Nat)
  | cutOutBytes (bytePos bytesToCut : Nat)
  | extend (size : Nat) (renewal : Renewal)
  | hintSize (size : Nat) (renewal : Renewal)
  | nullTerminatedStr (renewal : Renewal)

/-- A function that gives no builder has raised. -/
def orRaised (v : Vstr) : Option Vstr → VstrEnd × Vstr
  | none => (.raised, v)
  | some next => (.returned, next)

/-- Perform a call. -/
def vstrCall (v : Vstr) : VstrCall → Option (VstrEnd × Vstr)
  | .addLen bytes renewal => vstrAddLen wordBits v bytes renewal
  | .addByte b renewal => vstrAddByte wordBits v b renewal
  | .addChar c renewal => vstrAddChar wordBits v c renewal
  | .addStrn str renewal => vstrAddStrn wordBits v str renewal
  | .insByte bytePos b renewal => vstrInsByte wordBits v bytePos b renewal
  | .insChar charPos chr renewal => vstrInsChar wordBits v charPos chr renewal
  | .cutHeadBytes bytesToCut =>
    (vstrCutHeadBytes wordBits v bytesToCut).map fun next => (.returned, next)
  | .cutTailBytes len => some (.returned, vstrCutTailBytes v len)
  | .cutOutBytes bytePos bytesToCut =>
    (vstrCutOutBytes wordBits v bytePos bytesToCut).map fun next => (.returned, next)
  | .extend size renewal => some (orRaised v (vstrExtend wordBits v size renewal))
  | .hintSize size renewal => some (orRaised v (vstrEnsureExtra wordBits v size renewal))
  | .nullTerminatedStr renewal => vstrNullTerminatedStr wordBits v renewal

/-! ## Lists of bytes -/

/-- What a call does to the list of bytes that has been built. -/
def VstrCall.onBytes (built : List Nat) : VstrCall → List Nat
  | .addLen bytes _ => built ++ bytes
  | .addByte b _ => built ++ [b]
  | .addChar c _ => built ++ charBytes c
  | .addStrn str _ => built ++ str
  | .insByte bytePos b _ => built.take bytePos ++ [b] ++ built.drop bytePos
  | .insChar charPos chr _ => built.take charPos ++ [chr % 256] ++ built.drop charPos
  | .cutHeadBytes bytesToCut => built.drop bytesToCut
  | .cutTailBytes len => built.take (built.length - len)
  | .cutOutBytes bytePos bytesToCut => built.take bytePos ++ built.drop (bytePos + bytesToCut)
  | .extend _ _ => built
  | .hintSize _ _ => built
  | .nullTerminatedStr _ => built

/-- A builder and the list of bytes that the same calls build, where one that raises does nothing. -/
def vstrCallOnBoth (state : Vstr × List Nat) (call : VstrCall) :
    Option (VstrEnd × Vstr × List Nat) :=
  (vstrCall wordBits state.1 call).map fun (ended, v) =>
    (ended, v, if ended = .raised then state.2 else call.onBytes state.2)

/-- The builder owns a buffer of `alloc` bytes, which begins with the `len` bytes that are built. -/
structure Vstr.Holds (v : Vstr) (built : List Nat) : Prop where
  growable : v.fixedBuf = false
  alloc : v.alloc = v.buf.length
  len : v.len = built.length
  inside : v.len ≤ v.alloc
  word : v.alloc < 2 ^ wordBits
  contents : built <+: v.buf

/-- The size that a builder needs for some more bytes is a word, and what it is rounded to is large
enough, if the buffer is too small. -/
def Vstr.RoomFor (v : Vstr) (size : Nat) : Prop :=
  v.len + size < 2 ^ wordBits ∧
    (v.len + size ≤ v.alloc ∨
      v.len + size ≤ roundAlloc wordBits ((v.len + size + 16) % 2 ^ wordBits))

/-- No size that the call computes is too large. -/
def VstrCall.Fits (v : Vstr) : VstrCall → Prop
  | .addLen bytes _ => v.RoomFor wordBits bytes.length
  | .addByte _ _ => v.RoomFor wordBits 1
  | .addChar c _ => v.RoomFor wordBits (charBytes c).length
  | .addStrn str _ => v.RoomFor wordBits str.length
  | .insByte _ _ _ => v.RoomFor wordBits 1
  | .insChar _ _ _ => v.RoomFor wordBits 1
  | .cutHeadBytes bytesToCut => bytesToCut < 2 ^ wordBits
  | .cutTailBytes _ => True
  | .cutOutBytes bytePos bytesToCut => v.len ≤ bytePos ∨ bytePos + bytesToCut < 2 ^ wordBits
  | .extend size _ => v.alloc + size < 2 ^ wordBits
  | .hintSize size _ => v.RoomFor wordBits size
  | .nullTerminatedStr _ => v.alloc = v.len → v.alloc + 1 < 2 ^ wordBits

section Calls

variable {wordBits} {v : Vstr} {built : List Nat} {renewal : Renewal}

theorem mRenew_eq_some {buf after : List Nat} {size : Nat} (positive : 0 < size)
    (renewed : mRenew buf size renewal = some after) : ∃ fill, after = resized fill size buf := by
  rw [mRenew, if_neg (by omega)] at renewed
  obtain ⟨fill, -, same⟩ := map_eq_some_iff.mp renewed
  exact ⟨fill, same.symm⟩

theorem Vstr.Holds.renewed (holds : v.Holds wordBits built) {newAlloc : Nat}
    (large : v.len ≤ newAlloc) (word : newAlloc < 2 ^ wordBits) (fill : Nat → Nat) :
    ({ v with alloc := newAlloc, buf := resized fill newAlloc v.buf } : Vstr).Holds wordBits built where
  growable := holds.growable
  alloc := (length_resized fill newAlloc v.buf).symm
  len := holds.len
  inside := large
  word := word
  contents := prefix_resized holds.contents (holds.len ▸ large) fill

theorem vstrEnsureExtra_spec (holds : v.Holds wordBits built) {size : Nat}
    (room : v.RoomFor wordBits size) (renewal : Renewal) :
    vstrEnsureExtra wordBits v size renewal = none ∨
      ∃ grown, vstrEnsureExtra wordBits v size renewal = some grown ∧
        grown.Holds wordBits built ∧ built.length + size ≤ grown.buf.length := by
  obtain ⟨word, fits⟩ := room
  have len := holds.len
  unfold vstrEnsureExtra
  rw [Nat.mod_eq_of_lt word, holds.growable]
  by_cases small : v.len + size > v.alloc
  · simp only [if_pos small, Bool.false_eq_true, if_false]
    generalize isNew : roundAlloc wordBits ((v.len + size + 16) % 2 ^ wordBits) = newAlloc at fits
    have newWord : newAlloc < 2 ^ wordBits := isNew ▸ Nat.mod_lt _ (Nat.two_pow_pos _)
    have enough : v.len + size ≤ newAlloc := fits.resolve_left (by omega)
    cases renewed : mRenew v.buf newAlloc renewal with
    | none => exact .inl rfl
    | some buf =>
      obtain ⟨fill, rfl⟩ := mRenew_eq_some (by omega) renewed
      refine .inr ⟨_, rfl, ?_, ?_⟩
      · have renewedHolds := holds.renewed (by omega) newWord fill
        rwa [holds.growable] at renewedHolds
      · rw [length_resized]
        omega
  · rw [if_neg small]
    refine .inr ⟨v, rfl, holds, ?_⟩
    have alloc := holds.alloc
    omega

/-- How a call on a builder may end: it raises and leaves the builder alone, or the builder holds
what it should. -/
def Ends (wordBits : Nat) (v : Vstr) (built : List Nat) (done : Option (VstrEnd × Vstr)) : Prop :=
  done = some (.raised, v) ∨ ∃ next, done = some (.returned, next) ∧ next.Holds wordBits built

theorem vstrAddLen_spec (holds : v.Holds wordBits built) {bytes : List Nat}
    (room : v.RoomFor wordBits bytes.length) (renewal : Renewal) :
    Ends wordBits v (built ++ bytes) (vstrAddLen wordBits v bytes renewal) := by
  rcases vstrEnsureExtra_spec holds room renewal with raises | ⟨grown, grows, grownHolds, inside⟩
  · exact .inl (by rw [vstrAddLen, raises])
  · obtain ⟨buf, stored, contents, length⟩ := storeAt_contents grownHolds.contents inside
    have len := grownHolds.len
    have alloc := grownHolds.alloc
    have word := grownHolds.word
    have small : grown.len + bytes.length < 2 ^ wordBits := by omega
    refine .inr ⟨{ grown with len := grown.len + bytes.length, buf := buf }, ?_, ?_⟩
    · simp only [vstrAddLen, grows, len, stored, map_some]
      rw [← len, Nat.mod_eq_of_lt small]
    · exact ⟨grownHolds.growable, by rw [length]; exact alloc, by simp [len],
        by show grown.len + bytes.length ≤ grown.alloc; omega, word, contents⟩

theorem vstrAddStrn_eq (str : List Nat) :
    vstrAddStrn wordBits v str renewal = vstrAddLen wordBits v str renewal := rfl

theorem vstrInsBytes_spec (holds : v.Holds wordBits built) {bytePos : Nat} {bytes : List Nat}
    (some_ : 0 < bytes.length) (room : v.RoomFor wordBits bytes.length) (renewal : Renewal) :
    Ends wordBits v (built.take bytePos ++ bytes ++ built.drop bytePos)
      (vstrInsBytes wordBits v bytePos bytes renewal) := by
  rcases vstrEnsureExtra_spec holds room renewal with raises | ⟨grown, grows, grownHolds, inside⟩
  · refine .inl ?_
    simp only [vstrInsBytes, if_pos some_, raises]
  · have len := holds.len
    have grownLen := grownHolds.len
    have alloc := grownHolds.alloc
    have word := grownHolds.word
    have position : (if bytePos > v.len then v.len else bytePos) = (built.take bytePos).length := by
      rw [length_take]
      split_ifs <;> omega
    have tailLength : v.len - (built.take bytePos).length = (built.drop bytePos).length := by
      rw [length_take, length_drop]
      omega
    have total : (built.take bytePos).length + (built.drop bytePos).length = built.length := by
      rw [← length_append, take_append_drop]
    have contents : built.take bytePos ++ built.drop bytePos <+: grown.buf := by
      rw [take_append_drop]
      exact grownHolds.contents
    have loaded := loadAt_contents contents
    obtain ⟨moved, filled, moves, fills, filledContents, length⟩ :=
      storeAt_gap contents (by omega : _ + _ + bytes.length ≤ _)
    refine .inr ⟨{ grown with len := grown.len + bytes.length, buf := filled }, ?_, ?_⟩
    · simp only [vstrInsBytes, if_pos some_, grows, position, tailLength, loaded, moves, fills,
        bind_eq_bind, bind_some]
      rw [Nat.mod_eq_of_lt (by omega)]
    · refine ⟨grownHolds.growable, by rw [length]; exact alloc, ?_, ?_, word, filledContents⟩
      · show grown.len + bytes.length = _
        simp only [length_append]
        omega
      · show grown.len + bytes.length ≤ grown.alloc
        omega

theorem Vstr.Holds.cutOff (holds : v.Holds wordBits built) {len : Nat} (shorter : len ≤ v.len) :
    ({ v with len := len } : Vstr).Holds wordBits (built.take len) where
  growable := holds.growable
  alloc := holds.alloc
  len := by
    rw [length_take, Nat.min_eq_left (holds.len ▸ shorter)]
  inside := shorter.trans holds.inside
  word := holds.word
  contents := ( take_prefix _ _).trans holds.contents

theorem vstrCutOutBytes_spec (holds : v.Holds wordBits built) {bytePos bytesToCut : Nat}
    (fits : v.len ≤ bytePos ∨ bytePos + bytesToCut < 2 ^ wordBits) :
    ∃ next, vstrCutOutBytes wordBits v bytePos bytesToCut = some next ∧
      next.Holds wordBits (built.take bytePos ++ built.drop (bytePos + bytesToCut)) := by
  have len := holds.len
  have inside := holds.inside
  have word := holds.word
  have alloc := holds.alloc
  unfold vstrCutOutBytes
  dsimp only
  split_ifs with beyond toEnd
  · refine ⟨v, rfl, ?_⟩
    rw [take_of_length_le (by omega), drop_of_length_le (by omega), append_nil]
    exact holds
  · rw [Nat.mod_eq_of_lt (fits.resolve_left (by omega))] at toEnd
    refine ⟨_, rfl, ?_⟩
    rw [drop_of_length_le (by omega), append_nil]
    exact holds.cutOff (by omega)
  · rw [Nat.mod_eq_of_lt (fits.resolve_left (by omega))] at toEnd ⊢
    have count : (v.len - bytePos + 2 ^ wordBits - bytesToCut) % 2 ^ wordBits =
        (built.drop (bytePos + bytesToCut)).length := by
      rw [show v.len - bytePos + 2 ^ wordBits - bytesToCut =
        (v.len - bytePos - bytesToCut) + 2 ^ wordBits by omega, Nat.add_mod_right,
        Nat.mod_eq_of_lt (by omega), length_drop]
      omega
    have left : (v.len + 2 ^ wordBits - bytesToCut) % 2 ^ wordBits = v.len - bytesToCut := by
      rw [show v.len + 2 ^ wordBits - bytesToCut = v.len - bytesToCut + 2 ^ wordBits by omega,
        Nat.add_mod_right, Nat.mod_eq_of_lt (by omega)]
    have takeLength : (built.take bytePos).length = bytePos := by
      rw [length_take]
      omega
    have tailLoaded : loadAt v.buf (bytePos + bytesToCut)
        (built.drop (bytePos + bytesToCut)).length = some (built.drop (bytePos + bytesToCut)) := by
      have frontLength : (built.take (bytePos + bytesToCut)).length = bytePos + bytesToCut := by
        rw [length_take]
        omega
      have loaded := @loadAt_contents _ v.buf (built.take (bytePos + bytesToCut))
        (built.drop (bytePos + bytesToCut)) (by
          rw [take_append_drop]
          exact holds.contents)
      rwa [frontLength] at loaded
    obtain ⟨buf, stored, contents, length⟩ := @storeAt_contents _ v.buf (built.take bytePos)
      (built.drop (bytePos + bytesToCut)) (( take_prefix _ _).trans holds.contents) (by
        rw [takeLength, length_drop]
        omega)
    rw [takeLength] at stored
    refine ⟨{ v with buf := buf, len := v.len - bytesToCut }, ?_, ?_⟩
    · simp only [count, left, tailLoaded, stored, bind_eq_bind, bind_some]
    · refine ⟨holds.growable, by rw [length]; exact alloc, ?_, ?_, word, contents⟩
      · show v.len - bytesToCut = _
        rw [length_append, length_take, length_drop]
        omega
      · show v.len - bytesToCut ≤ v.alloc
        omega

theorem vstrInit_holds {alloc : Nat} (small : max alloc 1 < 2 ^ wordBits)
    (made : vstrInit alloc renewal = some v) : v.Holds wordBits [] ∧ v.alloc = max alloc 1 := by
  have isMax : (if alloc < 1 then 1 else alloc) = max alloc 1 := by
    split_ifs <;> omega
  simp only [vstrInit, isMax] at made
  obtain ⟨buf, renewed, rfl⟩ := map_eq_some_iff.mp made
  obtain ⟨fill, rfl⟩ := mRenew_eq_some (by omega) renewed
  exact ⟨⟨rfl, (length_resized _ _ _).symm, rfl, Nat.zero_le _, small, nil_prefix⟩, rfl⟩

theorem vstrExtend_spec (holds : v.Holds wordBits built) {size : Nat}
    (fits : v.alloc + size < 2 ^ wordBits) (renewal : Renewal) :
    vstrExtend wordBits v size renewal = none ∨
      ∃ grown, vstrExtend wordBits v size renewal = some grown ∧ grown.Holds wordBits built ∧
        grown.alloc = v.alloc + size := by
  have inside := holds.inside
  simp only [vstrExtend, holds.growable, Bool.false_eq_true, if_false, Nat.mod_eq_of_lt fits]
  rcases Nat.eq_zero_or_pos (v.alloc + size) with zero | positive
  · refine .inr ⟨_, by rw [mRenew, if_pos zero, map_some], ?_, rfl⟩
    have empty : built = [] := eq_nil_of_length_eq_zero (by rw [← holds.len]; omega)
    exact ⟨rfl, zero, holds.len, inside.trans (Nat.le_add_right _ _), fits,
      by rw [empty]⟩
  · cases renewed : mRenew v.buf (v.alloc + size) renewal with
    | none => exact .inl rfl
    | some buf =>
      obtain ⟨fill, rfl⟩ := mRenew_eq_some positive renewed
      have renewedHolds := holds.renewed (by omega) fits fill
      rw [holds.growable] at renewedHolds
      exact .inr ⟨_, rfl, renewedHolds, rfl⟩

theorem vstrNullTerminatedStr_spec (holds : v.Holds wordBits built)
    (fits : v.alloc = v.len → v.alloc + 1 < 2 ^ wordBits) (renewal : Renewal) :
    Ends wordBits v built (vstrNullTerminatedStr wordBits v renewal) := by
  -- With one byte behind the contents, the null byte is stored there.
  have terminates : ∀ grown : Vstr, grown.Holds wordBits built → grown.len < grown.alloc →
      ∃ buf, storeAt grown.buf grown.len [0] = some buf ∧
        Vstr.Holds wordBits { grown with buf := buf } built := by
    intro grown grownHolds spare
    have alloc := grownHolds.alloc
    obtain ⟨buf, stored⟩ := @storeAt_isSome _ grown.buf [0] grown.len (by
      rw [length_singleton]
      omega)
    exact ⟨buf, stored, grownHolds.growable, by rw [length_of_storeAt stored]; exact alloc,
      grownHolds.len, grownHolds.inside, grownHolds.word,
      storeAt_behind grownHolds.contents grownHolds.len.ge stored⟩
  unfold vstrNullTerminatedStr
  by_cases full : v.alloc = v.len
  · rcases vstrExtend_spec holds (fits full) renewal with raises | ⟨grown, grows, grownHolds, large⟩
    · exact .inl (by simp only [if_pos full, raises])
    · have len := grownHolds.len
      have oldLen := holds.len
      obtain ⟨buf, stored, bufHolds⟩ := terminates grown grownHolds (by omega)
      exact .inr ⟨_, by simp only [if_pos full, grows, stored, map_some], bufHolds⟩
  · have inside := holds.inside
    obtain ⟨buf, stored, bufHolds⟩ := terminates v holds (by omega)
    exact .inr ⟨_, by simp only [if_neg full, stored, map_some], bufHolds⟩

/-- A call that fits ends as it should. -/
theorem vstrCall_spec (holds : v.Holds wordBits built) {call : VstrCall}
    (fits : call.Fits wordBits v) :
    Ends wordBits v (call.onBytes built) (vstrCall wordBits v call) := by
  cases call with
  | addLen bytes renewal => exact vstrAddLen_spec holds fits renewal
  | addByte b renewal => exact @vstrAddLen_spec _ _ _ holds [b] fits renewal
  | addChar c renewal => exact @vstrAddLen_spec _ _ _ holds (charBytes c) fits renewal
  | addStrn str renewal =>
    rw [vstrCall, vstrAddStrn_eq]
    exact vstrAddLen_spec holds fits renewal
  | insByte bytePos b renewal => exact @vstrInsBytes_spec _ _ _ holds bytePos [b] Nat.one_pos fits renewal
  | insChar charPos chr renewal =>
    exact @vstrInsBytes_spec _ _ _ holds charPos [chr % 256] Nat.one_pos fits renewal
  | cutHeadBytes bytesToCut =>
    obtain ⟨next, cuts, nextHolds⟩ := @vstrCutOutBytes_spec _ _ _ holds 0 bytesToCut
      (.inr (by rw [Nat.zero_add]; exact fits))
    rw [Nat.zero_add, take_zero, nil_append] at nextHolds
    exact .inr ⟨next, by rw [vstrCall, vstrCutHeadBytes, cuts]; rfl, nextHolds⟩
  | cutTailBytes len =>
    have oldLen := holds.len
    refine .inr ⟨_, rfl, ?_⟩
    rw [VstrCall.onBytes, ← oldLen, vstrCutTailBytes]
    split_ifs with all
    · rw [show v.len - len = 0 by omega]
      exact holds.cutOff (Nat.zero_le _)
    · exact holds.cutOff (Nat.sub_le _ _)
  | cutOutBytes bytePos bytesToCut =>
    obtain ⟨next, cuts, nextHolds⟩ := vstrCutOutBytes_spec holds fits
    exact .inr ⟨next, by rw [vstrCall, cuts]; rfl, nextHolds⟩
  | extend size renewal =>
    rcases vstrExtend_spec holds fits renewal with raises | ⟨grown, grows, grownHolds, -⟩
    · exact .inl (by rw [vstrCall, raises]; rfl)
    · exact .inr ⟨grown, by rw [vstrCall, grows]; rfl, grownHolds⟩
  | hintSize size renewal =>
    rcases vstrEnsureExtra_spec holds fits renewal with raises | ⟨grown, grows, grownHolds, -⟩
    · exact .inl (by rw [vstrCall, raises]; rfl)
    · exact .inr ⟨grown, by rw [vstrCall, grows]; rfl, grownHolds⟩
  | nullTerminatedStr renewal => exact vstrNullTerminatedStr_spec holds fits renewal

/-- What a call on a builder and its list should do: the builder still holds the list, one that
raises changes nothing, and any other does to the list what it is for. -/
structure VstrMeets (wordBits : Nat) (state : Vstr × List Nat) (call : VstrCall) (ended : VstrEnd)
    (next : Vstr × List Nat) : Prop where
  holds : next.1.Holds wordBits next.2
  raised : ended = .raised → next = state
  returned : ended = .returned → next.2 = call.onBytes state.2

/-- A builder and the list of bytes agree along every sequence of calls that fit. -/
theorem vstr_refines (holds : v.Holds wordBits built) (calls : List VstrCall)
    (fit : ∀ made ∈ attempted (vstrCallOnBoth wordBits) (v, built) calls,
      made.2.Fits wordBits made.1.1) :
    AllAnswered (vstrCallOnBoth wordBits) (VstrMeets wordBits) (v, built) calls := by
  refine AllAnswered.of_condition (fun state => state.1.Holds wordBits state.2)
    (fun state call => call.Fits wordBits state.1) ?_ holds calls fit
  rintro ⟨before, list⟩ call beforeHolds fits
  rcases vstrCall_spec beforeHolds fits with raises | ⟨next, returns, nextHolds⟩
  · refine ⟨.raised, (before, list), by simp [vstrCallOnBoth, raises],
      ⟨beforeHolds, (fun _ => rfl), (fun same => by cases same)⟩, beforeHolds⟩
  · refine ⟨.returned, (next, call.onBytes list), by simp [vstrCallOnBoth, returns],
      ⟨nextHolds, (fun same => by cases same), (fun _ => rfl)⟩, nextHolds⟩

theorem roundAlloc_mask (a : Nat) : a &&& 0xFFFFFFF8 = a % 2 ^ 32 / 8 * 8 := by
  have mask : 0xFFFFFFF8 = (2 ^ 29 - 1) <<< 3 := by decide
  apply Nat.eq_of_testBit_eq
  intro bit
  rw [mask, Nat.testBit_and, Nat.testBit_shiftLeft, Nat.testBit_two_pow_sub_one,
    show (8 : Nat) = 2 ^ 3 by rfl, ← Nat.shiftRight_eq_div_pow, ← Nat.shiftLeft_eq,
    Nat.testBit_shiftLeft]
  by_cases low : 3 ≤ bit
  · rw [Nat.testBit_shiftRight, Nat.testBit_mod_two_pow, Nat.add_sub_cancel' low]
    by_cases high : bit < 32
    · simp [low, high, show bit - 3 < 29 by omega]
    · simp [high, show ¬bit - 3 < 29 by omega]
  · simp [low]

theorem Vstr.roomFor_of_lt (word : 32 ≤ wordBits) {size : Nat} (small : v.len + size + 24 < 2 ^ 32) :
    v.RoomFor wordBits size := by
  have powers : (2 : Nat) ^ 32 ≤ 2 ^ wordBits := Nat.pow_le_pow_right (by omega) word
  refine ⟨by omega, .inr ?_⟩
  rw [roundAlloc, roundAlloc_mask, Nat.mod_eq_of_lt (show v.len + size + 16 < 2 ^ wordBits by omega),
    Nat.mod_eq_of_lt (show v.len + size + 16 < 2 ^ 32 by omega), Nat.mod_eq_of_lt (by omega)]
  omega

end Calls

/-- A builder with ten bytes. -/
def tenBytes : Vstr where
  alloc := 16
  len := 10
  buf := List.replicate 16 7
  fixedBuf := false

theorem tenBytes_holds : tenBytes.Holds 32 (List.replicate 10 7) :=
  ⟨rfl, rfl, rfl, by decide, by decide, by decide⟩

/-- The calls of one use, one of which raises. -/
theorem vstr_refines_tenBytes :
    AllAnswered (vstrCallOnBoth 32) (VstrMeets 32) (tenBytes, List.replicate 10 7)
      [.insByte 3 1 none, .cutOutBytes 2 4, .extend 8 none, .cutTailBytes 20] :=
  vstr_refines tenBytes_holds _ (by
    intro made member
    simp only [attempted, vstrCallOnBoth, vstrCall] at member
    fin_cases member
    · exact Vstr.roomFor_of_lt (le_refl 32) (by decide)
    · exact Or.inr (by decide)
    · show _ < _
      decide
    · trivial)

/-- To cut out everything from a position on with the largest size copies the wrong way, and makes
the contents longer. -/
theorem vstr_refines_cut_wraps :
    ¬AllAnswered (vstrCallOnBoth 32) (VstrMeets 32) (tenBytes, List.replicate 10 7)
      [.cutOutBytes 1 (2 ^ 32 - 1)] := by
  intro answered
  cases answered with
  | cons comes here later =>
    have len : _ = _ := here.holds.len
    cases comes
    exact absurd len (by decide)

end MultiPython.Str
