import MultiPython.Esp32.Artnet

/-!
# What an ArtDMX frame takes from earlier ones

The receive buffer of `ports/esp32/modartnet.c` is used again for every datagram, and the size that
`recvfrom` returns is not looked at. Two runs of the receive task with different histories
write the same to the layers exactly when every byte that is copied has arrived.
-/

namespace MultiPython.Esp32

open List

/-- `recvfrom`: a datagram is stored at the front of the buffer, as much of it as fits. -/
def receive (rx : Buffer) (datagram : List UInt8) : Buffer := fun offset =>
  if offset < ArtnetPacket.size then datagram.getD offset (rx offset) else rx offset

/-- The buffer after a history of datagrams. -/
def receiveAll (rx : Buffer) (history : List (List UInt8)) : Buffer := history.foldl receive rx

/-- The bytes of a datagram that are stored. -/
def stored (datagram : List UInt8) : Nat := min datagram.length ArtnetPacket.size

/-- The writes among the accesses: the layer, the offset and the value. -/
def writes (accesses : List Access) : List (Nat × Nat × UInt8) :=
  accesses.filterMap fun
    | .write layer offset value => some (layer, offset, value)
    | _ => none

/-- The packet is static: it starts with zeros. What lies behind it may be anything. -/
def StartsZeroed (rx : Buffer) : Prop := ∀ offset < ArtnetPacket.size, rx offset = 0

/-- What a datagram writes does not depend on the history before it. -/
def FramesApart (infos : List ArtdmxInfo) (datagram : List UInt8) : Prop :=
  ∀ first second, StartsZeroed first → StartsZeroed second → ∀ earlier other,
    ArtnetPacket.accepted (receive (receiveAll first earlier) datagram) →
      writes (handlePacket (receive (receiveAll first earlier) datagram) infos) =
        writes (handlePacket (receive (receiveAll second other) datagram) infos)

/-- The nodes of a port address that the distribution comes to: those before a division by zero. -/
def reached (portAddress : Nat) (infos : List ArtdmxInfo) : List ArtdmxInfo :=
  (infos.filter fun info => info.portAddress.toNat == portAddress && info.layer.isSome).takeWhile
    fun info => info.cpl.toNat != 0

/-- The LEDs that are copied for a node: none if it has neither three nor four channels. -/
def ArtdmxInfo.copied (info : ArtdmxInfo) (length : Nat) : Nat :=
  if info.cpl.toNat = 3 ∨ info.cpl.toNat = 4 then info.numLeds length else 0

/-- The bytes that are copied for the nodes are among the first ones of the buffer. -/
def CopiesWithin (rx : Buffer) (infos : List ArtdmxInfo) (count : Nat) : Prop :=
  ∀ info ∈ reached (ArtnetPacket.portAddress rx) infos,
    info.copied (ArtnetPacket.length rx) = 0 ∨
      ArtnetPacket.dataOffset + info.startChannel.toNat +
        info.cpl.toNat * info.copied (ArtnetPacket.length rx) ≤ count

/-! ## The writes -/

theorem writes_append (front back : List Access) :
    writes (front ++ back) = writes front ++ writes back :=
  filterMap_append

theorem append_eq_iff {α : Type*} {front other back rest : List α}
    (same : front.length = other.length) :
    front ++ back = other ++ rest ↔ front = other ∧ back = rest :=
  ⟨fun equal => append_inj equal same, fun equal => congrArg₂ _ equal.1 equal.2⟩

section Copies

variable {info : ArtdmxInfo} {data other : Buffer} {layer : Nat}

theorem writes_copyLed (indi : Nat) : writes (info.copyLed data layer indi) =
    [(layer, modaddBpl * (indi + info.startIndex.toNat) + 0,
        data (info.cpl.toNat * indi + info.startChannel.toNat + 0)),
      (layer, modaddBpl * (indi + info.startIndex.toNat) + 1,
        data (info.cpl.toNat * indi + info.startChannel.toNat + 1)),
      (layer, modaddBpl * (indi + info.startIndex.toNat) + 2,
        data (info.cpl.toNat * indi + info.startChannel.toNat + 2)),
      (layer, modaddBpl * (indi + info.startIndex.toNat) + 3,
        if info.cpl.toNat > 3 then data (info.cpl.toNat * indi + info.startChannel.toNat + 3)
        else 0)] := by
  by_cases alpha : info.cpl.toNat > 3
  · rw [ArtdmxInfo.copyLed, if_pos alpha, if_pos alpha]
    rfl
  · rw [ArtdmxInfo.copyLed, if_neg alpha, if_neg alpha]
    rfl

theorem writes_copyLed_eq_iff (known : info.cpl.toNat = 3 ∨ info.cpl.toNat = 4) (indi : Nat) :
    writes (info.copyLed data layer indi) = writes (info.copyLed other layer indi) ↔
      ∀ channel < info.cpl.toNat, data (info.cpl.toNat * indi + info.startChannel.toNat + channel) =
        other (info.cpl.toNat * indi + info.startChannel.toNat + channel) := by
  simp only [writes_copyLed, List.cons.injEq, Prod.mk.injEq, true_and, and_true]
  rcases known with three | four
  · rw [if_neg (by omega), if_neg (by omega), three]
    constructor
    · rintro ⟨red, green, blue, -⟩ channel inside
      interval_cases channel
      · exact red
      · exact green
      · exact blue
    · intro same
      exact ⟨same 0 (by decide), same 1 (by decide), same 2 (by decide), rfl⟩
  · rw [if_pos (by omega), if_pos (by omega), four]
    constructor
    · rintro ⟨red, green, blue, alpha⟩ channel inside
      interval_cases channel
      · exact red
      · exact green
      · exact blue
      · exact alpha
    · intro same
      exact ⟨same 0 (by decide), same 1 (by decide), same 2 (by decide), same 3 (by decide)⟩

theorem length_writes_copyLeds (count : Nat) :
    (writes (info.copyLeds data layer count)).length = 4 * count := by
  induction count with
  | zero => rfl
  | succ count ih =>
    rw [ArtdmxInfo.copyLeds, writes_append, length_append, ih,
      writes_copyLed]
    rfl

/-- The LEDs are written the same from two data fields that agree on all channels copied. -/
theorem writes_copyLeds_eq_iff (known : info.cpl.toNat = 3 ∨ info.cpl.toNat = 4) (count : Nat) :
    writes (info.copyLeds data layer count) = writes (info.copyLeds other layer count) ↔
      ∀ offset < info.cpl.toNat * count, data (info.startChannel.toNat + offset) =
        other (info.startChannel.toNat + offset) := by
  induction count with
  | zero => exact iff_of_true rfl fun _ none => absurd none (Nat.not_lt_zero _)
  | succ count ih =>
    have split : writes (info.copyLeds data layer (count + 1)) =
          writes (info.copyLeds other layer (count + 1)) ↔
        writes (info.copyLeds data layer count) = writes (info.copyLeds other layer count) ∧
          writes (info.copyLed data layer count) = writes (info.copyLed other layer count) := by
      rw [ArtdmxInfo.copyLeds, ArtdmxInfo.copyLeds, writes_append, writes_append]
      exact append_eq_iff (by rw [length_writes_copyLeds, length_writes_copyLeds])
    rw [split, ih, writes_copyLed_eq_iff known]
    constructor
    · rintro ⟨before, here⟩ offset inside
      by_cases earlier : offset < info.cpl.toNat * count
      · exact before offset earlier
      · obtain ⟨channel, rfl⟩ := Nat.exists_eq_add_of_le (Nat.not_lt.mp earlier)
        have column : channel < info.cpl.toNat := by
          rw [Nat.mul_succ] at inside
          omega
        have same := here channel column
        rwa [Nat.add_comm (info.cpl.toNat * count), Nat.add_assoc] at same
    · intro same
      rw [Nat.mul_succ] at same
      constructor
      · intro offset inside
        exact same offset (by omega)
      · intro channel inside
        have here := same (info.cpl.toNat * count + channel) (by omega)
        rwa [← Nat.add_assoc, Nat.add_comm info.startChannel.toNat] at here

end Copies

/-! ## The distribution -/

/-- What is copied for a node. -/
def ArtdmxInfo.copies (info : ArtdmxInfo) (rx : Buffer) : List Access :=
  info.copyLeds (ArtnetPacket.data rx) (info.layer.getD 0)
    (info.copied (ArtnetPacket.length rx))

theorem reached_cons (portAddress : Nat) (info : ArtdmxInfo) (infos : List ArtdmxInfo) :
    reached portAddress (info :: infos) =
      if info.portAddress.toNat = portAddress ∧ info.layer.isSome then
        if info.cpl.toNat = 0 then [] else info :: reached portAddress infos
      else reached portAddress infos := by
  rw [reached, filter_cons]
  by_cases target : info.portAddress.toNat = portAddress ∧ info.layer.isSome = true
  · rw [if_pos target, if_pos (by simpa using target), takeWhile_cons]
    by_cases zero : info.cpl.toNat = 0
    · rw [if_pos zero, if_neg (by simpa using zero)]
    · rw [if_neg zero, if_pos (by simpa using zero), reached]
  · rw [if_neg target, if_neg (by simpa using target), reached]

theorem writes_distribute (rx : Buffer) (infos : List ArtdmxInfo) :
    writes (distribute rx infos) =
      (reached (ArtnetPacket.portAddress rx) infos).flatMap fun info => writes (info.copies rx) := by
  induction infos with
  | nil => rfl
  | cons info infos ih =>
    rw [distribute, reached_cons]
    by_cases port : info.portAddress.toNat = ArtnetPacket.portAddress rx
    · rw [if_pos port]
      cases target : info.layer with
      | none => simp [ih]
      | some layer =>
        have skip (rest : List Access) :
            writes (.divide info.cpl.toNat :: rest) = writes rest := rfl
        rw [if_pos ⟨port, rfl⟩]
        simp only [skip]
        by_cases zero : info.cpl.toNat = 0
        · rw [if_pos zero, if_pos zero]
          rfl
        · rw [if_neg zero, if_neg zero, flatMap_cons, ← ih,
            ArtdmxInfo.copies, ArtdmxInfo.copied, target]
          by_cases unknown : info.cpl.toNat ≠ 3 ∧ info.cpl.toNat ≠ 4
          · rw [if_pos unknown, if_neg (by omega)]
            rfl
          · rw [if_neg unknown, if_pos (by omega), writes_append]
            rfl
    · rw [if_neg port, if_neg (fun both => port both.1), ih]

/-- Two buffers have the same header. -/
def SameHeader (rx other : Buffer) : Prop := ∀ offset < ArtnetPacket.dataOffset, rx offset = other offset

section Header

variable {rx other : Buffer}

section

variable (same : SameHeader rx other)

include same

theorem SameHeader.accepted :
    ArtnetPacket.accepted rx = ArtnetPacket.accepted other := by
  simp only [ArtnetPacket.accepted, ArtnetPacket.strcmpEq, ArtnetPacket.opCode,
    ArtnetPacket.protVer, ArtnetPacket.length]
  have byte (offset : Nat) (inside : offset < 18) : rx offset = other offset := same offset inside
  simp only [Nat.reduceAdd, byte, Nat.reduceLT, Nat.zero_lt_succ]
  rfl

theorem SameHeader.portAddress :
    ArtnetPacket.portAddress rx = ArtnetPacket.portAddress other := by
  rw [ArtnetPacket.portAddress, ArtnetPacket.portAddress, same 15 (by decide), same 14 (by decide)]

theorem SameHeader.length :
    ArtnetPacket.length rx = ArtnetPacket.length other := by
  rw [ArtnetPacket.length, ArtnetPacket.length, same 16 (by decide), same 17 (by decide)]

theorem writes_copies_eq_iff (info : ArtdmxInfo) :
    writes (info.copies rx) = writes (info.copies other) ↔
      ∀ offset < info.cpl.toNat * info.copied (ArtnetPacket.length rx),
        rx (ArtnetPacket.dataOffset + info.startChannel.toNat + offset) =
          other (ArtnetPacket.dataOffset + info.startChannel.toNat + offset) := by
  simp only [ArtdmxInfo.copies, ← same.length, Nat.add_assoc]
  by_cases known : info.cpl.toNat = 3 ∨ info.cpl.toNat = 4
  · exact writes_copyLeds_eq_iff known _
  · have nothing : info.copied (ArtnetPacket.length rx) = 0 := if_neg known
    rw [nothing]
    exact iff_of_true rfl fun _ none => absurd none (Nat.not_lt_zero _)

theorem length_writes_copies (info : ArtdmxInfo) :
    (writes (info.copies rx)).length = (writes (info.copies other)).length := by
  rw [ArtdmxInfo.copies, ArtdmxInfo.copies, length_writes_copyLeds, length_writes_copyLeds,
    same.length]

theorem writes_distribute_eq_iff (infos : List ArtdmxInfo) :
    writes (distribute rx infos) = writes (distribute other infos) ↔
      ∀ info ∈ reached (ArtnetPacket.portAddress rx) infos,
        ∀ offset < info.cpl.toNat * info.copied (ArtnetPacket.length rx),
          rx (ArtnetPacket.dataOffset + info.startChannel.toNat + offset) =
            other (ArtnetPacket.dataOffset + info.startChannel.toNat + offset) := by
  rw [writes_distribute, writes_distribute, ← same.portAddress]
  induction reached (ArtnetPacket.portAddress rx) infos with
  | nil => exact iff_of_true rfl fun _ none => absurd none not_mem_nil
  | cons info rest ih =>
    rw [flatMap_cons, flatMap_cons, append_eq_iff (length_writes_copies same info),
      forall_mem_cons, writes_copies_eq_iff same, ih]

end

theorem writes_distribute_eq_nil {infos : List ArtdmxInfo}
    (nothing : ∀ info ∈ reached (ArtnetPacket.portAddress rx) infos,
      info.copied (ArtnetPacket.length rx) = 0) : writes (distribute rx infos) = [] := by
  rw [writes_distribute, flatMap_eq_nil_iff]
  intro info comes
  rw [ArtdmxInfo.copies, nothing info comes]
  rfl

end Header

/-! ## Histories -/

variable {datagram : List UInt8}

theorem receive_stored (rx : Buffer) {offset : Nat} (inside : offset < stored datagram) :
    receive rx datagram offset = datagram.getD offset 0 := by
  obtain ⟨arrived, fits⟩ := lt_min_iff.mp inside
  rw [receive, if_pos fits, getD_eq_getElem _ _ arrived, getD_eq_getElem _ _ arrived]

theorem receive_behind (rx : Buffer) {offset : Nat} (behind : stored datagram ≤ offset) :
    receive rx datagram offset = rx offset := by
  rw [receive]
  by_cases fits : offset < ArtnetPacket.size
  · rw [if_pos fits, getD_eq_default]
    exact (min_le_iff.mp behind).resolve_right (Nat.not_le.mpr fits)
  · rw [if_neg fits]

theorem sameHeader_receive (rx other : Buffer) (whole : ArtnetPacket.dataOffset ≤ stored datagram) :
    SameHeader (receive rx datagram) (receive other datagram) := by
  intro offset inside
  rw [receive_stored rx (by omega), receive_stored other (by omega)]

theorem exists_history (rx : Buffer) :
    ∃ start, StartsZeroed start ∧ ∃ history, receiveAll start history = rx := by
  refine ⟨fun offset => if offset < ArtnetPacket.size then 0 else rx offset, ?_,
    [(List.range ArtnetPacket.size).map rx], ?_⟩
  · intro offset inside
    exact if_pos inside
  · funext offset
    rw [receiveAll, foldl_cons, foldl_nil, receive]
    by_cases inside : offset < ArtnetPacket.size
    · rw [if_pos inside, getD_eq_getElem _ _ (by simpa using inside), getElem_map,
        getElem_range]
    · rw [if_neg inside, if_neg inside]

section Frames

variable {infos : List ArtdmxInfo} {datagram : List UInt8}

theorem writes_eq_of_copiesWithin {first second : Buffer}
    (within : ∀ rx, ArtnetPacket.accepted (receive rx datagram) →
      CopiesWithin (receive rx datagram) infos (stored datagram))
    (passes : ArtnetPacket.accepted (receive first datagram)) :
    writes (handlePacket (receive first datagram) infos) =
      writes (handlePacket (receive second datagram) infos) := by
  by_cases whole : ArtnetPacket.dataOffset ≤ stored datagram
  · have same := sameHeader_receive first second whole
    rw [handlePacket, handlePacket, ← same.accepted, if_pos passes, if_pos passes,
      writes_distribute_eq_iff same]
    intro info comes offset inside
    have arrived := within first passes info comes
    have copies : info.copied (ArtnetPacket.length (receive first datagram)) ≠ 0 := by
      intro zero
      rw [zero] at inside
      exact absurd inside (Nat.not_lt_zero _)
    have bound := arrived.resolve_left copies
    rw [receive_stored first (by omega), receive_stored second (by omega)]
  · -- A datagram without the whole header writes nothing, after any history.
    have nothing (rx : Buffer) : writes (handlePacket (receive rx datagram) infos) = [] := by
      rw [handlePacket]
      by_cases accepts : ArtnetPacket.accepted (receive rx datagram) = true
      · rw [if_pos accepts]
        apply writes_distribute_eq_nil
        intro info comes
        apply (within rx accepts info comes).resolve_right
        omega
      · rw [if_neg accepts]
        rfl
    rw [nothing first, nothing second]

/-- A byte that is copied and has not arrived can be changed by the history. -/
theorem exists_other_write {rx : Buffer} (passes : ArtnetPacket.accepted (receive rx datagram))
    (outside : ¬CopiesWithin (receive rx datagram) infos (stored datagram)) :
    ∃ other, writes (handlePacket (receive rx datagram) infos) ≠
      writes (handlePacket (receive other datagram) infos) := by
  simp only [CopiesWithin, not_forall, not_or, Nat.not_le] at outside
  obtain ⟨info, comes, copies, beyond⟩ := outside
  -- The last byte that is copied for the node.
  have channels : 0 < info.cpl.toNat * info.copied (ArtnetPacket.length (receive rx datagram)) := by
    apply Nat.mul_pos _ (Nat.pos_of_ne_zero copies)
    rw [ArtdmxInfo.copied] at copies
    split_ifs at copies with known
    · omega
    · exact absurd rfl copies
  obtain ⟨last, isLast⟩ := Nat.exists_eq_succ_of_ne_zero channels.ne'
  let missing := ArtnetPacket.dataOffset + info.startChannel.toNat + last
  have behind : stored datagram ≤ missing := by
    simp only [missing]
    omega
  refine ⟨Function.update rx missing (rx missing + 1), ?_⟩
  have elsewhere (offset : Nat) (differs : offset ≠ missing) :
      receive rx datagram offset =
        receive (Function.update rx missing (rx missing + 1)) datagram offset := by
    rw [receive, receive, Function.update_of_ne differs]
  have same : SameHeader (receive rx datagram)
      (receive (Function.update rx missing (rx missing + 1)) datagram) := by
    intro offset inside
    apply elsewhere
    simp only [missing]
    omega
  rw [handlePacket, handlePacket, ← same.accepted, if_pos passes, if_pos passes, Ne,
    writes_distribute_eq_iff same]
  intro equal
  have changed := equal info comes last (by omega)
  rw [receive_behind _ behind, receive_behind _ behind, Function.update_self] at changed
  exact absurd changed.symm (by simp)

/-- A datagram is written the same after every history exactly when, wherever it passes as ArtDMX,
all bytes that are copied have arrived with it. -/
theorem framesApart_iff (infos : List ArtdmxInfo) (datagram : List UInt8) :
    FramesApart infos datagram ↔ ∀ rx, ArtnetPacket.accepted (receive rx datagram) →
      CopiesWithin (receive rx datagram) infos (stored datagram) := by
  constructor
  · intro apart rx passes
    by_contra outside
    obtain ⟨other, differs⟩ := exists_other_write passes outside
    obtain ⟨start, started, history, reaches⟩ := exists_history rx
    obtain ⟨start', started', history', reaches'⟩ := exists_history other
    have same := apart start start' started started' history history'
    rw [reaches, reaches'] at same
    exact differs (same passes)
  · intro within first second _ _ earlier other passes
    exact writes_eq_of_copiesWithin within passes

end Frames

/-- A header that announces three bytes of data, without them. -/
def headerOnly : List UInt8 := [65, 114, 116, 45, 78, 101, 116, 0, 0, 0x50, 0, 14, 0, 0, 0, 0, 0, 3]

/-- After a frame with other data, the same datagram writes that data. -/
theorem headerOnly_leaks : ¬FramesApart [artdmxInfoMakeNew 1 0 0 0 3 (some 0)] headerOnly := by
  intro apart
  have same := apart (fun _ => 0) (fun _ => 0) (fun _ _ => rfl) (fun _ _ => rfl)
    [headerOnly ++ [1, 2, 3]] [headerOnly ++ [4, 5, 6]]
  revert same
  decide

end MultiPython.Esp32
