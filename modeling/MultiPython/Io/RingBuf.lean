import MultiPython.Logic.Ring

/-!
# The ring buffer of bytes

`ringbuf_t` of `py/ringbuf.h`, between an interrupt handler that puts bytes and a program that gets
them. Whatever the order of the calls is, they answer as those of a queue do, of one byte less than
the size that the 16 bits of `size` hold.
-/

namespace MultiPython.Io

open Logic List

/-- `ringbuf_t`, with the memory that `buf` points at. -/
structure RingBuf where
  buf : Nat → UInt8
  size : Nat
  iget : Nat
  iput : Nat

/-- `ringbuf_alloc`, in memory with any contents. -/
def ringbufAlloc (buf : Nat → UInt8) (sz : Nat) : RingBuf := ⟨buf, sz % 2 ^ 16, 0, 0⟩

def ringbufGet (r : RingBuf) : Int × RingBuf :=
  if r.iget = r.iput then (-1, r)
  else
    let v := r.buf r.iget
    let iget := (r.iget + 1) % 2 ^ 16
    (v.toNat, { r with iget := if iget ≥ r.size then 0 else iget })

def ringbufPut (r : RingBuf) (v : UInt8) : Int × RingBuf :=
  let iputNew := if r.iput + 1 ≥ r.size then 0 else r.iput + 1
  if iputNew = r.iget then (-1, r)
  else (0, { r with buf := Function.update r.buf r.iput v, iput := iputNew % 2 ^ 16 })

inductive RingCall where
  | get
  | put (v : UInt8)

def RingBuf.call (r : RingBuf) : RingCall → Int × RingBuf
  | .get => ringbufGet r
  | .put v => ringbufPut r v

/-- What calls return, one after the other. -/
def RingBuf.answers : RingBuf → List RingCall → List Int
  | _, [] => []
  | r, call :: calls => (r.call call).1 :: answers (r.call call).2 calls

/-- A call of a queue that holds less than `size` bytes, oldest first. -/
def byteQueue (size : Nat) (bytes : List UInt8) : RingCall → Int × List UInt8
  | .get => (bytes.head?.elim (-1) fun v => v.toNat, bytes.tail)
  | .put v => if bytes.length + 1 < size then (0, bytes ++ [v]) else (-1, bytes)

def byteQueueAnswers (size : Nat) : List UInt8 → List RingCall → List Int
  | _, [] => []
  | bytes, call :: calls =>
    (byteQueue size bytes call).1 :: byteQueueAnswers size (byteQueue size bytes call).2 calls

/-- A ring buffer with its bytes. One of size zero has none. -/
def RingBuf.Holds (r : RingBuf) (bytes : List UInt8) : Prop :=
  r.size < 2 ^ 16 ∧ (Ring.Represents r.size r.buf r.iget r.iput bytes ∨
    r.size = 0 ∧ r.iget = 0 ∧ r.iput = 0 ∧ bytes = [])

/-- A call answers as the queue does, and leaves its bytes. -/
theorem RingBuf.Holds.call {r : RingBuf} {bytes : List UInt8} (holds : r.Holds bytes)
    (call : RingCall) :
    (r.call call).1 = (byteQueue r.size bytes call).1 ∧ (r.call call).2.size = r.size ∧
      (r.call call).2.Holds (byteQueue r.size bytes call).2 := by
  obtain ⟨small, ring | ⟨isZero, atGet, atPut, rfl⟩⟩ := holds
  · have inside := ring.inside
    cases call with
    | get =>
      rw [RingBuf.call, ringbufGet, byteQueue]
      by_cases none_ : bytes = []
      · subst none_
        rw [if_pos (ring.eq_iff.mpr rfl)]
        exact ⟨rfl, rfl, small, .inl ring⟩
      · rw [if_neg (mt ring.eq_iff.mp none_), ring.head none_,
          Nat.mod_eq_of_lt (by omega : r.iget + 1 < 2 ^ 16)]
        exact ⟨rfl, rfl, small, .inl (ring.pop none_)⟩
    | put v =>
      have full : Ring.next r.size r.iput = r.iget ↔ bytes.length + 1 = r.size := ring.next_eq_iff
      have short := ring.short
      have below : r.iput < r.size := by
        have place := ring.writeAt
        unfold Ring.place at place
        split at place <;> omega
      have next := Ring.next_lt below
      rw [Ring.next] at full next
      rw [RingBuf.call, ringbufPut, byteQueue]
      by_cases room : bytes.length + 1 < r.size
      · rw [if_pos room, if_neg (mt full.mp room.ne), Nat.mod_eq_of_lt (by omega)]
        exact ⟨rfl, rfl, small, .inl (ring.push room v)⟩
      · rw [if_neg room, if_pos (full.mpr (by omega))]
        exact ⟨rfl, rfl, small, .inl ring⟩
  · cases call with
    | get =>
      simp only [RingBuf.call, ringbufGet, byteQueue, atGet, atPut, if_true]
      exact ⟨rfl, trivial, small, .inr ⟨isZero, atGet, atPut, rfl⟩⟩
    | put v =>
      have refused : r.call (.put v) = (-1, r) := by simp [RingBuf.call, ringbufPut, *]
      rw [refused, byteQueue, if_neg (by omega)]
      exact ⟨rfl, rfl, small, .inr ⟨isZero, atGet, atPut, rfl⟩⟩

theorem RingBuf.Holds.answers {r : RingBuf} {bytes : List UInt8} (holds : r.Holds bytes)
    (calls : List RingCall) : r.answers calls = byteQueueAnswers r.size bytes calls := by
  induction calls generalizing r bytes with
  | nil => rfl
  | cons call calls ih =>
    obtain ⟨same, size, later⟩ := holds.call call
    rw [RingBuf.answers, byteQueueAnswers, same, ih later, size]

end MultiPython.Io
