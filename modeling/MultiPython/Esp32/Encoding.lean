import MultiPython.Esp32.Composer
import MultiPython.Esp32.LedChain

/-!
# The output of composed fixtures

`addressable_layer_compose` and `addressable_composer_enforce_protocol_data` of
`ports/esp32/modaddressable_layer.c`. The composed pixels are encoded for the protocol of the
output. Both sides are read and written with the protocol's bytes for each LED, though the
composed pixels have four.
-/

namespace MultiPython.Esp32

open Logic Option Function

/-- The fields of `modadd_protocol_t`, with those that only the composer reads. -/
structure ComposerProtocol extends ModaddProtocol where
  indices : List Nat
  brightnessRightshifts : Nat

/-- `modadd_protocol_apa102`, in the order alpha, blue, green and red. -/
def composerApa102 : ComposerProtocol :=
  { modaddProtocolApa102 with indices := [3, 2, 1, 0], brightnessRightshifts := 3 }

/-- `modadd_protocol_ws2812`, in the order green, red and blue. -/
def composerWs2812 : ComposerProtocol :=
  { modaddProtocolWs2812 with indices := [1, 0, 2], brightnessRightshifts := 0 }

/-- `modadd_protocols`. -/
def composerProtocols : List ComposerProtocol := [composerApa102, composerWs2812]

def modaddAIndex : Nat := 3

namespace ComposerProtocol

variable (protocol : ComposerProtocol)

def index (channel : Nat) : Nat := protocol.indices.getD channel 0

def mask (channel : Nat) : UInt8 := UInt8.ofNat (protocol.orMask.getD channel 0)

/-- The last channel of opacity of a protocol with more than three channels; 0xFF is none. -/
def brightnessChannel : Nat :=
  if protocol.bpl > 3 then
    protocol.bpl.fold
      (fun channel _ found => if protocol.index channel = modaddAIndex then channel else found) 0xFF
  else 0xFF

/-- The body of the loop that maps the pixels onto the output. -/
def mapLed (src : Buffer) (led : Nat) (dst : Buffer) : Buffer :=
  protocol.bpl.fold (fun channel _ dst =>
    let position := protocol.bpl * led + channel
    let dst := Function.update dst position (src (protocol.bpl * led + protocol.index channel))
    Function.update dst position (dst position ||| protocol.mask channel)) dst

/-- The body of the loop that applies the brightness. -/
def brightenLed (brightness : UInt8) (led : Nat) (dst : Buffer) : Buffer :=
  let position := protocol.bpl * led + protocol.brightnessChannel
  let dst := Function.update dst position
    (UInt8.ofNat (brightness.toNat >>> protocol.brightnessRightshifts))
  Function.update dst position (dst position ||| protocol.mask protocol.brightnessChannel)

/-- `addressable_composer_enforce_protocol_data`. -/
def enforce (leds : Nat) (brightness : UInt8) (src dst : Buffer) : Buffer :=
  let dst := leds.fold (fun led _ dst => protocol.mapLed src led dst) dst
  if protocol.brightnessChannel < protocol.bpl then
    leds.fold (fun led _ dst => protocol.brightenLed brightness led dst) dst
  else dst

end ComposerProtocol

/-- What the composer uses of `addressable_fixture_obj_t`; a null pointer is none, and the nodes of
the layers are the list of the layers. -/
structure ComposedFixture where
  leds : Nat
  outData : Option Buffer
  compData : Option Buffer
  brightness : UInt8
  layers : Option (List AddressableLayer)

/-- What the composer uses of `modadd_ctrl_t`: `output.protocol` and `fixture_ctrl`. -/
structure ComposedCtrl where
  protocol : Nat
  fixtures : List (Option ComposedFixture)
  hasData : Bool
  dataLen : Nat

/-- The body of the loop of `addressable_layer_compose`. -/
def ComposedFixture.compose (protocol : ComposerProtocol) (fixture : ComposedFixture) :
    ComposedFixture :=
  match fixture.layers, fixture.outData, fixture.compData with
  | some layers, some outData, some compData =>
    if fixture.leds = 0 then fixture
    else
      let pixels := mixLayers fixture.leds layers (zeroed fixture.leds compData)
      { fixture with
        compData := some pixels
        outData := some (protocol.enforce fixture.leds fixture.brightness pixels outData) }
  | _, _, _ => fixture

/-- `addressable_layer_compose`; a protocol that is not in the table has no result. -/
def addressableLayerCompose (ctrl : ComposedCtrl) : Option ComposedCtrl :=
  if ctrl.fixtures = [] ∨ ctrl.hasData = false ∨ ctrl.dataLen = 0 then some ctrl
  else do
    let protocol ← composerProtocols[ctrl.protocol]?
    some { ctrl with fixtures := ctrl.fixtures.map (Option.map (ComposedFixture.compose protocol)) }

/-! ## The bytes of an LED -/

/-- What the output byte of a channel should be, from the components of the LED's own pixel. -/
def ComposerProtocol.encoded (protocol : ComposerProtocol) (brightness : UInt8)
    (component : Nat → UInt8) (channel : Nat) : UInt8 :=
  (if protocol.index channel = modaddAIndex then
      UInt8.ofNat (brightness.toNat >>> protocol.brightnessRightshifts)
    else component (protocol.index channel)) ||| protocol.mask channel

/-- Every output byte of a composed fixture comes from its LED's own pixel. -/
def ComposedFixture.IsEncoded (protocol : ComposerProtocol) (fixture : ComposedFixture) : Prop :=
  ∃ pixels outData, fixture.compData = some pixels ∧ fixture.outData = some outData ∧
    ∀ led < fixture.leds, ∀ channel < protocol.bpl,
      outData (protocol.bpl * led + channel) = protocol.encoded fixture.brightness
        (fun component => pixels (modaddBpl * led + component)) channel

section Enforce

variable {protocol : ComposerProtocol} {leds led channel : Nat} (brightness : UInt8)
  (src dst : Buffer)

theorem row_mul_add {width row column : Nat} (inside : column < width) :
    (width * row + column) / width = row := by
  rw [Nat.mul_add_div (Nat.zero_lt_of_lt inside), Nat.div_eq_of_lt inside, Nat.add_zero]

theorem column_mul_add {width row column : Nat} (inside : column < width) :
    (width * row + column) % width = column := by
  rw [Nat.mul_add_mod, Nat.mod_eq_of_lt inside]

theorem update_mask (position : Nat) (value mask : UInt8) :
    Function.update (Function.update dst position value) position
      (Function.update dst position value position ||| mask) =
        Function.update dst position (value ||| mask) := by
  rw [update_idem, update_self]

/-- What the first loop stores at an offset. -/
def ComposerProtocol.mapped (protocol : ComposerProtocol) (src : Buffer) (offset : Nat) : UInt8 :=
  src (protocol.bpl * (offset / protocol.bpl) + protocol.index (offset % protocol.bpl)) |||
    protocol.mask (offset % protocol.bpl)

/-- What the second loop leaves at an offset. -/
def ComposerProtocol.brightened (protocol : ComposerProtocol) (brightness : UInt8) (offset : Nat)
    (value : UInt8) : UInt8 :=
  if offset % protocol.bpl = protocol.brightnessChannel then
    UInt8.ofNat (brightness.toNat >>> protocol.brightnessRightshifts) |||
      protocol.mask protocol.brightnessChannel
  else value

theorem ComposerProtocol.mapLed_apply (positive : 0 < protocol.bpl) (led : Nat) (dst : Buffer)
    (offset : Nat) : protocol.mapLed src led dst offset =
      if offset / protocol.bpl = led then protocol.mapped src offset else dst offset := by
  apply fold_row positive fun offset _ => protocol.mapped src offset
  intro channel inside memory
  rw [update_mask, mapped, row_mul_add inside, column_mul_add inside]

theorem ComposerProtocol.brightenLed_apply (inside : protocol.brightnessChannel < protocol.bpl)
    (led : Nat) (dst : Buffer) (offset : Nat) : protocol.brightenLed brightness led dst offset =
      if offset / protocol.bpl = led then protocol.brightened brightness offset (dst offset)
      else dst offset := by
  rw [brightenLed, update_mask, brightened]
  by_cases here : offset = protocol.bpl * led + protocol.brightnessChannel
  · rw [here, update_self, row_mul_add inside, column_mul_add inside, if_pos rfl,
      if_pos rfl]
  · rw [update_of_ne here]
    by_cases row : offset / protocol.bpl = led
    · rw [if_pos row, if_neg]
      intro column
      rw [← row, ← column, Nat.div_add_mod] at here
      exact here rfl
    · rw [if_neg row]

theorem ComposerProtocol.enforce_apply (here : led < leds) (inside : channel < protocol.bpl) :
    protocol.enforce leds brightness src dst (protocol.bpl * led + channel) =
      (if channel = protocol.brightnessChannel then
          UInt8.ofNat (brightness.toNat >>> protocol.brightnessRightshifts)
        else src (protocol.bpl * led + protocol.index channel)) ||| protocol.mask channel := by
  have mapping := fold_rows (fun offset _ => protocol.mapped src offset)
    (protocol.mapLed_apply src (Nat.zero_lt_of_lt inside)) leds dst (protocol.bpl * led + channel)
  rw [row_mul_add inside, if_pos here, mapped, row_mul_add inside, column_mul_add inside] at mapping
  simp only [enforce]
  by_cases bright : protocol.brightnessChannel < protocol.bpl
  · have applying := fold_rows (protocol.brightened brightness)
      (protocol.brightenLed_apply brightness bright) leds
      (leds.fold (fun led _ dst => protocol.mapLed src led dst) dst) (protocol.bpl * led + channel)
    rw [row_mul_add inside, if_pos here, mapping, brightened, column_mul_add inside] at applying
    rw [if_pos bright, applying]
    by_cases isBright : channel = protocol.brightnessChannel
    · rw [if_pos isBright, if_pos isBright, ← isBright]
    · rw [if_neg isBright, if_neg isBright]
  · rw [if_neg bright, mapping, if_neg]
    rintro rfl
    exact bright inside

end Enforce

theorem brightnessChannel_iff : ∀ protocol ∈ composerProtocols, ∀ channel < protocol.bpl,
    channel = protocol.brightnessChannel ↔ protocol.index channel = modaddAIndex := by
  decide

theorem mask_color : ∀ protocol ∈ composerProtocols, ∀ channel < protocol.bpl,
    protocol.index channel ≠ modaddAIndex → protocol.mask channel = 0 := by
  decide

/-- The pixels hold the same bytes three bytes apart as four bytes apart. -/
def SameAtBothStrides (leds : Nat) (pixels : Buffer) : Prop :=
  ∀ led < leds, ∀ component < 3,
    pixels (3 * led + component) = pixels (modaddBpl * led + component)

/-- Only one LED makes sure of that. -/
theorem sameAtBothStrides_always_iff (leds : Nat) :
    (∀ pixels, SameAtBothStrides leds pixels) ↔ leds ≤ 1 := by
  constructor
  · intro always
    by_contra more
    have different := always (fun offset => if offset = 4 then 1 else 0) 1 (by omega) 0 (by omega)
    exact absurd different (by decide)
  · intro one pixels led here component _
    obtain rfl : led = 0 := by omega
    rfl

section Encoded

variable {protocol : ComposerProtocol} {leds : Nat}

/-- The bytes that a protocol of the table puts out, against those that it should. -/
theorem enforce_eq_encoded_iff (inTable : protocol ∈ composerProtocols) (brightness : UInt8)
    (src dst : Buffer) {led channel : Nat} (here : led < leds) (inside : channel < protocol.bpl) :
    protocol.enforce leds brightness src dst (protocol.bpl * led + channel) =
        protocol.encoded brightness (fun component => src (modaddBpl * led + component)) channel ↔
      (protocol.index channel ≠ modaddAIndex →
        src (protocol.bpl * led + protocol.index channel) =
          src (modaddBpl * led + protocol.index channel)) := by
  have bright := brightnessChannel_iff protocol inTable channel inside
  rw [protocol.enforce_apply brightness src dst here inside, ComposerProtocol.encoded]
  by_cases opacity : protocol.index channel = modaddAIndex
  · rw [if_pos (bright.mpr opacity), if_pos opacity]
    exact iff_of_true rfl fun color => absurd opacity color
  · rw [if_neg (mt bright.mp opacity), if_neg opacity, mask_color protocol inTable channel inside
      opacity, UInt8.or_zero, UInt8.or_zero]
    exact ⟨fun same _ => same, fun same => same opacity⟩

/-- All bytes are right exactly when the strides are the same or make no difference. -/
theorem enforce_encoded_iff (inTable : protocol ∈ composerProtocols) (brightness : UInt8)
    (src dst : Buffer) :
    (∀ led < leds, ∀ channel < protocol.bpl,
      protocol.enforce leds brightness src dst (protocol.bpl * led + channel) =
        protocol.encoded brightness (fun component => src (modaddBpl * led + component)) channel) ↔
      protocol.bpl = 4 ∨ SameAtBothStrides leds src := by
  have byChannel : (∀ led < leds, ∀ channel < protocol.bpl,
      protocol.enforce leds brightness src dst (protocol.bpl * led + channel) =
        protocol.encoded brightness (fun component => src (modaddBpl * led + component)) channel) ↔
      ∀ led < leds, ∀ channel < protocol.bpl, protocol.index channel ≠ modaddAIndex →
        src (protocol.bpl * led + protocol.index channel) =
          src (modaddBpl * led + protocol.index channel) := by
    apply forall₄_congr
    intro led here channel inside
    exact enforce_eq_encoded_iff inTable brightness src dst here inside
  rw [byChannel]
  simp only [composerProtocols, List.mem_cons, List.not_mem_nil, or_false] at inTable
  rcases inTable with rfl | rfl
  · exact iff_of_true (fun _ _ _ _ _ => rfl) (.inl rfl)
  · rw [or_iff_right (show ¬composerWs2812.bpl = 4 by decide)]
    apply forall₂_congr
    intro led here
    constructor
    · intro same component inside
      interval_cases component
      · exact same 1 (by decide) (by decide)
      · exact same 0 (by decide) (by decide)
      · exact same 2 (by decide) (by decide)
    · intro same channel inside _
      have column : composerWs2812.index channel < 3 := by
        revert channel
        decide
      exact same _ column

end Encoded

/-! ## The composition of a controller -/

/-- The composition of a controller comes to a fixture and composes it. -/
structure Reaches (ctrl : ComposedCtrl) (protocol : ComposerProtocol) (position : Nat)
    (fixture : ComposedFixture) (layers : List AddressableLayer) (compData : Buffer) : Prop where
  inTable : composerProtocols[ctrl.protocol]? = some protocol
  hasData : ctrl.hasData = true
  dataLen : ctrl.dataLen ≠ 0
  linked : ctrl.fixtures[position]? = some (some fixture)
  layers : fixture.layers = some layers
  outData : fixture.outData.isSome
  compData : fixture.compData = some compData
  leds : fixture.leds ≠ 0

/-- Two LEDs of a strip with three bytes for each, of which the second one is red. -/
def redSecond : ComposedFixture where
  leds := 2
  outData := some fun _ => 0
  compData := some fun _ => 0
  brightness := 127
  layers := some [⟨.set, some fun offset => if offset = 4 then 255 else 0⟩]

end MultiPython.Esp32
