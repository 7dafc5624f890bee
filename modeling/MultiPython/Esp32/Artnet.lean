import MultiPython.Esp32.Composer

/-!
# Receiving ArtDMX

The receive task of `ports/esp32/modartnet.c`. A packet that passes the checks of its header is
distributed to the layers that registered for its port address. What the task does to memory is a
list of accesses: a division, a read of the packet's data or a write to a layer. The buffer is the
memory from `rx_artnet_packet` on.
-/

namespace MultiPython.Esp32

open List

/-- The fields of `addressable_layer_artdmx_info_obj_t`; `layer` is the number of a layer, or a null
pointer. -/
structure ArtdmxInfo where
  layer : Option Nat
  leds : UInt16
  cpl : UInt8
  portAddress : UInt16
  startIndex : UInt16
  startChannel : UInt16

/-- `addressable_layer_artdmx_info_make_new`, which truncates its arguments, and the `layer` that
`addressable_layer_add_artdmx_info` sets. -/
def artdmxInfoMakeNew (leds portAddress startIndex startChannel cpl : Int) (layer : Option Nat) :
    ArtdmxInfo where
  layer := layer
  leds := UInt16.ofInt leds
  cpl := UInt8.ofInt cpl
  portAddress := UInt16.ofInt portAddress
  startIndex := UInt16.ofInt startIndex
  startChannel := UInt16.ofInt startChannel

/-- What handling a packet does: it divides, reads a byte of `Data`, or writes to a layer. -/
inductive Access where
  | divide (divisor : Nat)
  | read (offset : Nat)
  | write (layer offset : Nat) (value : UInt8)
deriving DecidableEq

/-! ## The packet -/

namespace ArtnetPacket

/-- The offset of `Data` in `artnet_packet_t`. -/
def dataOffset : Nat := 18

/-- `sizeof(rx_artnet_packet)`. -/
def size : Nat := dataOffset + 512

/-- `strcmp` of the memory from an offset on with a literal gives 0. -/
def strcmpEq (rx : Buffer) : List UInt8 → Nat → Bool
  | [], offset => rx offset == 0
  | char :: literal, offset => rx offset == char && strcmpEq rx literal (offset + 1)

/-- Two bytes, the more significant one first. -/
def word (hi lo : UInt8) : Nat := (hi.toNat <<< 8) ||| (lo.toNat &&& 0xFF)

variable (rx : Buffer)

def opCode : Nat := word (rx 9) (rx 8)

def protVer : Nat := word (rx 10) (rx 11)

def portAddress : Nat := word (rx 15) (rx 14)

def length : Nat := word (rx 16) (rx 17)

/-- The byte of `Data` at an offset. -/
def data (offset : Nat) : UInt8 := rx (dataOffset + offset)

/-- The checks of the header: the ID "Art-Net", the code of ArtDMX, the version and the length. -/
def accepted : Bool :=
  strcmpEq rx [65, 114, 116, 45, 78, 101, 116] 0 && opCode rx == 0x5000 && !decide (protVer rx < 14) &&
    !decide (length rx > 512)

end ArtnetPacket

/-! ## The distribution to the layers -/

namespace ArtdmxInfo

variable (info : ArtdmxInfo)

/-- The `num_leds` that are copied from a packet of a length. -/
def numLeds (length : Nat) : Nat :=
  let numChannels := info.leds.toNat * info.cpl.toNat % 2 ^ 16
  let numChannels := if numChannels > length then length else numChannels
  numChannels / info.cpl.toNat

/-- The copy of a channel of an LED. -/
def copyChannel (data : Buffer) (layer indi channel : Nat) : List Access :=
  [.read (info.cpl.toNat * indi + info.startChannel.toNat + channel),
    .write layer (modaddBpl * (indi + info.startIndex.toNat) + channel)
      (data (info.cpl.toNat * indi + info.startChannel.toNat + channel))]

/-- The body of the loop that copies; without a fourth channel the LED becomes transparent. -/
def copyLed (data : Buffer) (layer indi : Nat) : List Access :=
  info.copyChannel data layer indi 0 ++ info.copyChannel data layer indi 1 ++
    info.copyChannel data layer indi 2 ++
      if info.cpl.toNat > 3 then info.copyChannel data layer indi 3
      else [.write layer (modaddBpl * (indi + info.startIndex.toNat) + 3) 0]

/-- The loop that copies. -/
def copyLeds (data : Buffer) (layer : Nat) : Nat → List Access
  | 0 => []
  | count + 1 => copyLeds data layer count ++ info.copyLed data layer count

end ArtdmxInfo

/-- The loop through the list at `artdmx_info_head`. The division comes before the check of its
divisor; a division by zero ends the task. -/
def distribute (rx : Buffer) : List ArtdmxInfo → List Access
  | [] => []
  | info :: infos =>
    if info.portAddress.toNat = ArtnetPacket.portAddress rx then
      match info.layer with
      | none => distribute rx infos
      | some layer =>
        .divide info.cpl.toNat ::
          if info.cpl.toNat = 0 then []
          else if info.cpl.toNat ≠ 3 ∧ info.cpl.toNat ≠ 4 then distribute rx infos
          else info.copyLeds (ArtnetPacket.data rx) layer
            (info.numLeds (ArtnetPacket.length rx)) ++ distribute rx infos
    else distribute rx infos

/-- What `artnet_server_task` does with a received packet. -/
def handlePacket (rx : Buffer) (infos : List ArtdmxInfo) : List Access :=
  if ArtnetPacket.accepted rx then distribute rx infos else []

theorem artdmxInfoMakeNew_surjective (info : ArtdmxInfo) :
    artdmxInfoMakeNew info.leds.toNat info.portAddress.toNat info.startIndex.toNat
      info.startChannel.toNat info.cpl.toNat info.layer = info := by
  have word (value : UInt16) : UInt16.ofInt value.toNat = value := by
    have small := value.toNat_lt
    have same : ((value.toNat : Int) % 2 ^ 16).toNat = value.toNat := by omega
    rw [UInt16.ofInt, same, UInt16.ofNat_toNat]
  have byte (value : UInt8) : UInt8.ofInt value.toNat = value := by
    have small := value.toNat_lt
    have same : ((value.toNat : Int) % 2 ^ 8).toNat = value.toNat := by omega
    rw [UInt8.ofInt, same, UInt8.ofNat_toNat]
  rw [artdmxInfoMakeNew, word, word, word, word, byte]

/-! ## Safety -/

/-- A division has a divisor, a read is below the packet's length, and a write is in the four bytes
for each LED of its layer. -/
def Access.Safe (length : Nat) (size : Nat → Nat) : Access → Prop
  | .divide divisor => divisor ≠ 0
  | .read offset => offset < length
  | .write layer offset _ => offset < modaddBpl * size layer

/-- The LEDs to copy are in the packet and in the layer. -/
structure ArtdmxInfo.Fits (info : ArtdmxInfo) (length size : Nat) : Prop where
  cpl : info.cpl.toNat ≠ 0
  inside : info.cpl.toNat = 3 ∨ info.cpl.toNat = 4 → info.numLeds length = 0 ∨
    info.startChannel.toNat + info.cpl.toNat * info.numLeds length ≤ length ∧
      info.startIndex.toNat + info.numLeds length ≤ size

section Safe

variable {info : ArtdmxInfo} {data : Buffer} {length layer : Nat} {size : Nat → Nat}

theorem divide_safe_iff (divisor : Nat) :
    (Access.divide divisor).Safe length size ↔ divisor ≠ 0 :=
  Iff.rfl

theorem copyChannel_safe_iff (indi channel : Nat) :
    (∀ access ∈ info.copyChannel data layer indi channel, access.Safe length size) ↔
      info.cpl.toNat * indi + info.startChannel.toNat + channel < length ∧
        modaddBpl * (indi + info.startIndex.toNat) + channel < modaddBpl * size layer := by
  rw [ArtdmxInfo.copyChannel, forall_mem_cons, forall_mem_singleton]
  rfl

theorem copyLed_safe_iff (known : info.cpl.toNat = 3 ∨ info.cpl.toNat = 4) (indi : Nat) :
    (∀ access ∈ info.copyLed data layer indi, access.Safe length size) ↔
      info.startChannel.toNat + info.cpl.toNat * (indi + 1) ≤ length ∧
        info.startIndex.toNat + indi < size layer := by
  simp only [ArtdmxInfo.copyLed, forall_mem_append, copyChannel_safe_iff]
  rcases known with three | four
  · rw [if_neg (by omega), forall_mem_singleton, Access.Safe, three, modaddBpl]
    omega
  · rw [if_pos (by omega), copyChannel_safe_iff, four, modaddBpl]
    omega

theorem copyLeds_safe_iff (known : info.cpl.toNat = 3 ∨ info.cpl.toNat = 4) (count : Nat) :
    (∀ access ∈ info.copyLeds data layer count, access.Safe length size) ↔
      count = 0 ∨ info.startChannel.toNat + info.cpl.toNat * count ≤ length ∧
        info.startIndex.toNat + count ≤ size layer := by
  induction count with
  | zero => exact iff_of_true (fun _ none => absurd none not_mem_nil) (.inl rfl)
  | succ count ih =>
    rw [ArtdmxInfo.copyLeds, forall_mem_append, ih, copyLed_safe_iff known]
    rcases known with three | four
    · rw [three]
      omega
    · rw [four]
      omega

end Safe

/-- The accesses of the distribution are safe exactly when every registered LED of the packet's
port address fits. -/
theorem distribute_safe_iff (rx : Buffer) (size : Nat → Nat) (infos : List ArtdmxInfo) :
    (∀ access ∈ distribute rx infos, access.Safe (ArtnetPacket.length rx) size) ↔
      ∀ info ∈ infos, info.portAddress.toNat = ArtnetPacket.portAddress rx →
        ∀ layer, info.layer = some layer → info.Fits (ArtnetPacket.length rx) (size layer) := by
  induction infos with
  | nil =>
    exact iff_of_true (fun _ none => absurd none not_mem_nil)
      (fun _ none => absurd none not_mem_nil)
  | cons info infos ih =>
    rw [forall_mem_cons, ← ih, distribute]
    by_cases port : info.portAddress.toNat = ArtnetPacket.portAddress rx
    · rw [if_pos port]
      cases target : info.layer with
      | none => simp only [port, reduceCtorEq, false_implies, implies_true, true_and]
      | some layer =>
        simp only [port, true_implies, Option.some.injEq, forall_eq', forall_mem_cons,
          divide_safe_iff]
        by_cases zero : info.cpl.toNat = 0
        · exact iff_of_false (fun safe => safe.1 zero) fun fits => fits.1.cpl zero
        · rw [if_neg zero]
          by_cases unknown : info.cpl.toNat ≠ 3 ∧ info.cpl.toNat ≠ 4
          · rw [if_pos unknown]
            exact and_congr_left' ⟨fun _ => ⟨zero, fun known => by omega⟩, fun _ => zero⟩
          · have known : info.cpl.toNat = 3 ∨ info.cpl.toNat = 4 := by omega
            rw [if_neg unknown, forall_mem_append, copyLeds_safe_iff known, ← and_assoc]
            apply and_congr_left'
            constructor
            · rintro ⟨_, inside⟩
              exact ⟨zero, fun _ => inside⟩
            · intro fits
              exact ⟨zero, fits.inside known⟩
    · rw [if_neg port]
      exact ⟨fun safe => ⟨fun same => absurd same port, safe⟩, And.right⟩

/-- Handling a packet is safe exactly when the packet is dropped or every registered LED fits. -/
theorem handlePacket_safe_iff (rx : Buffer) (size : Nat → Nat) (infos : List ArtdmxInfo) :
    (∀ access ∈ handlePacket rx infos, access.Safe (ArtnetPacket.length rx) size) ↔
      (ArtnetPacket.accepted rx → ∀ info ∈ infos,
        info.portAddress.toNat = ArtnetPacket.portAddress rx →
          ∀ layer, info.layer = some layer → info.Fits (ArtnetPacket.length rx) (size layer)) := by
  rw [handlePacket]
  by_cases passes : ArtnetPacket.accepted rx = true
  · rw [if_pos passes, distribute_safe_iff]
    exact ⟨fun fit _ => fit, fun fit => fit passes⟩
  · rw [if_neg passes]
    exact iff_of_true (fun _ none => absurd none not_mem_nil) fun same => absurd same passes

/-- An ArtDMX packet with three bytes of data, for port address 0. -/
def threeBytes : Buffer := fun offset =>
  ([65, 114, 116, 45, 78, 101, 116, 0, 0, 0x50, 0, 14, 0, 0, 0, 0, 0, 3, 1, 2, 3] : List UInt8).getD
    offset 0

/-- An LED that begins at the second channel is read from behind the packet's length, one without
channels divides by zero, and a second LED is written behind a layer of one. -/
theorem handlePacket_unsafe :
    ArtnetPacket.accepted threeBytes = true ∧
    .read 3 ∈ handlePacket threeBytes [artdmxInfoMakeNew 1 0 0 1 3 (some 0)] ∧
    .divide 0 ∈ handlePacket threeBytes [artdmxInfoMakeNew 1 0 0 0 0 (some 0)] ∧
    .write 0 4 1 ∈ handlePacket threeBytes [artdmxInfoMakeNew 1 0 1 0 3 (some 0)] ∧
    ¬(Access.read 3).Safe (ArtnetPacket.length threeBytes) (fun _ => 1) ∧
    ¬(Access.divide 0).Safe (ArtnetPacket.length threeBytes) (fun _ => 1) ∧
    ¬(Access.write 0 4 1).Safe (ArtnetPacket.length threeBytes) (fun _ => 1) := by
  simp only [Access.Safe]
  decide

end MultiPython.Esp32
