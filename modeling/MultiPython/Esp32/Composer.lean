import MultiPython.Logic.Rows

/-!
# Composing layers

The composers of `ports/esp32/modaddressable_layer.c`. The layers of a fixture are combined one
after the other with its composition data, in four bytes for each LED. A buffer is the memory from
its pointer on. Compositing takes colors that are premultiplied by their opacity, and does so with
an approximation of the product of two numbers between 0 and 1.
-/

namespace MultiPython.Esp32

open Logic List

/-- The memory behind a pointer. -/
abbrev Buffer := Nat → UInt8

def modaddBpl : Nat := 4

/-- `modadd_operations_e`, and `unknown` for any other number. -/
inductive ModaddOp where
  | skip | set | or | and | xor | mult | div | add | sub | comp | mask | num | unknown

/-- `MODADD_INT_MULT`; the temporary has 16 bits. -/
def modaddIntMult (a b : Nat) : Nat :=
  let t := (a * b + 0x80) % 2 ^ 16
  ((t >>> 8) + t) >>> 8

def modaddIntPrelerp (p q a : Nat) : Int := (p : Int) + q - modaddIntMult a p

/-- A store to every channel of an LED, from what is there. -/
def forChannels (led : Nat) (value : Nat → UInt8 → UInt8) (dst : Buffer) : Buffer :=
  modaddBpl.fold
    (fun channel _ dst => Function.update dst (modaddBpl * led + channel)
      (value (modaddBpl * led + channel) (dst (modaddBpl * led + channel)))) dst

def addressableComposerSet (leds : Nat) (src dst : Buffer) : Buffer :=
  leds.fold (fun led _ dst => forChannels led (fun offset _ => src offset) dst) dst

def addressableComposerComp (leds : Nat) (src dst : Buffer) : Buffer :=
  leds.fold (fun led _ dst =>
    let opacity := src (modaddBpl * led + 3)
    let dst := forChannels led (fun offset p =>
      UInt8.ofInt (modaddIntPrelerp p.toNat (src offset).toNat opacity.toNat)) dst
    forChannels led (fun _ value => if value.toNat > 255 then 255 else value) dst) dst

def addressableComposerMask (leds : Nat) (src dst : Buffer) : Buffer :=
  leds.fold (fun led _ dst =>
    forChannels led (fun offset value => if src offset ≠ 0 then 0 else value) dst) dst

/-- The choice of a composer; the bodies of the seven in the middle are commented out. -/
def ModaddOp.composer : ModaddOp → Option (Nat → Buffer → Buffer → Buffer)
  | .set => some addressableComposerSet
  | .or | .and | .xor | .mult | .div | .add | .sub => some fun _ _ dst => dst
  | .comp => some addressableComposerComp
  | .mask => some addressableComposerMask
  | .skip | .num | .unknown => none

/-- What is used of `addressable_layer_obj_t`. -/
structure AddressableLayer where
  op : ModaddOp
  data : Option Buffer

/-- A layer without data, or without a composer, is passed over. -/
def mixLayer (leds : Nat) (dst : Buffer) (layer : AddressableLayer) : Buffer :=
  match layer.data, layer.op.composer with
  | some src, some composer => composer leds src dst
  | _, _ => dst

/-- The loop of `addressable_layer_compose` through the layers of a fixture. -/
def mixLayers (leds : Nat) (layers : List AddressableLayer) (dst : Buffer) : Buffer :=
  layers.foldl (mixLayer leds) dst

/-- The `memset` of the composition data. -/
def zeroed (leds : Nat) (dst : Buffer) : Buffer :=
  fun offset => if offset < modaddBpl * leds then 0 else dst offset

/-! ## What a composer stores -/

theorem forChannels_apply (led : Nat) (value : Nat → UInt8 → UInt8) (dst : Buffer) (offset : Nat) :
    forChannels led value dst offset =
      if offset / modaddBpl = led then value offset (dst offset) else dst offset :=
  fold_row (by decide) value (fun _ _ _ => rfl) dst offset

theorem addressableComposerSet_apply (leds : Nat) (src dst : Buffer) (offset : Nat) :
    addressableComposerSet leds src dst offset =
      if offset / modaddBpl < leds then src offset else dst offset :=
  fold_rows (fun offset _ => src offset) (fun led => forChannels_apply led _) leds dst offset

theorem cap_eq (value : UInt8) : (if value.toNat > 255 then 255 else value) = value :=
  if_neg (Nat.not_lt.mpr (Nat.le_of_lt_succ value.toNat_lt))

/-- The value of a channel after compositing, truncated to eight bits. -/
def composited (src : Buffer) (offset : Nat) (p : UInt8) : UInt8 :=
  UInt8.ofInt (modaddIntPrelerp p.toNat (src offset).toNat
    (src (modaddBpl * (offset / modaddBpl) + 3)).toNat)

theorem addressableComposerComp_apply (leds : Nat) (src dst : Buffer) (offset : Nat) :
    addressableComposerComp leds src dst offset =
      if offset / modaddBpl < leds then composited src offset (dst offset) else dst offset := by
  apply fold_rows (composited src)
  intro led dst offset
  simp only [forChannels_apply, cap_eq, ite_self]
  by_cases here : offset / modaddBpl = led
  · rw [if_pos here, if_pos here, composited, here]
  · rw [if_neg here, if_neg here]

/-! ## The approximate product -/

section IntMult

variable {a p q : Nat}

section

variable (opacity : a ≤ 255) (channel : p ≤ 255)

include opacity channel

theorem intMult_temporary : a * p + 0x80 < 2 ^ 16 := by
  have product : a * p ≤ 255 * 255 := Nat.mul_le_mul opacity channel
  omega

theorem modaddIntMult_eq :
    modaddIntMult a p = ((a * p + 128) / 256 + (a * p + 128)) / 256 := by
  simp only [modaddIntMult, Nat.mod_eq_of_lt (intMult_temporary opacity channel),
    Nat.shiftRight_eq_div_pow]

theorem modaddIntMult_le : modaddIntMult a p ≤ p := by
  rw [modaddIntMult_eq opacity channel]
  have product : a * p ≤ 255 * p := Nat.mul_le_mul_right _ opacity
  omega

theorem le_modaddIntMult :
    p + a ≤ 255 + modaddIntMult a p := by
  rw [modaddIntMult_eq opacity channel]
  have product : 255 * p + 255 * a ≤ a * p + 255 * 255 := by nlinarith
  omega

end

theorem modaddIntMult_grows {more : Nat} (opacity : a ≤ 255) (grows : p ≤ more) (byte : more ≤ 255) :
    modaddIntMult a more + p ≤ modaddIntMult a p + more := by
  rw [modaddIntMult_eq opacity byte, modaddIntMult_eq opacity (grows.trans byte)]
  obtain ⟨step, rfl⟩ := Nat.exists_eq_add_of_le grows
  have product : a * step ≤ 255 * step := Nat.mul_le_mul_right _ opacity
  rw [Nat.mul_add]
  omega

theorem modaddIntMult_opaque (channel : p ≤ 255) : modaddIntMult 255 p = p := by
  rw [modaddIntMult_eq (Nat.le_refl _) channel]
  omega

/-- A premultiplied color is composited without leaving the range of a byte. -/
theorem modaddIntPrelerp_range (opacity : a ≤ 255) (channel : p ≤ 255) (premultiplied : q ≤ a) :
    0 ≤ modaddIntPrelerp p q a ∧ modaddIntPrelerp p q a ≤ 255 := by
  have least := modaddIntMult_le opacity channel
  have most := le_modaddIntMult opacity channel
  rw [modaddIntPrelerp]
  omega

theorem modaddIntPrelerp_mono {alpha : Nat} (opacity : a ≤ 255) (byte : alpha ≤ 255)
    (below : p ≤ alpha) (premultiplied : q ≤ a) :
    modaddIntPrelerp p q a ≤ modaddIntPrelerp alpha a a := by
  have grows := modaddIntMult_grows opacity below byte
  rw [modaddIntPrelerp, modaddIntPrelerp]
  omega

theorem modaddIntPrelerp_full (channel : p ≤ 255) : modaddIntPrelerp p q 255 = q := by
  rw [modaddIntPrelerp, modaddIntMult_opaque channel]
  omega

end IntMult

/-! ## Premultiplied layers -/

/-- No channel of a pixel is greater than the opacity. -/
def Premultiplied (leds : Nat) (pixels : Buffer) : Prop :=
  ∀ led < leds, ∀ channel < modaddBpl,
    pixels (modaddBpl * led + channel) ≤ pixels (modaddBpl * led + 3)

def Opaque (leds : Nat) (pixels : Buffer) : Prop :=
  ∀ led < leds, pixels (modaddBpl * led + 3) = 255

/-- The sum that compositing stores in a channel fits a byte, and so does its temporary two. -/
def NeverWraps (leds : Nat) (src dst : Buffer) : Prop :=
  ∀ led < leds, ∀ channel < modaddBpl,
    let p := (dst (modaddBpl * led + channel)).toNat
    let q := (src (modaddBpl * led + channel)).toNat
    let a := (src (modaddBpl * led + 3)).toNat
    0 ≤ modaddIntPrelerp p q a ∧ modaddIntPrelerp p q a ≤ 255 ∧ a * p + 0x80 < 2 ^ 16

theorem byte_le (value : UInt8) : value.toNat ≤ 255 := Nat.le_of_lt_succ value.toNat_lt

theorem toNat_ofInt {value : Int} (least : 0 ≤ value) (most : value ≤ 255) :
    ((UInt8.ofInt value).toNat : Int) = value := by
  simp only [UInt8.ofInt, UInt8.toNat_ofNat']
  omega

section Pixel

variable {leds led channel : Nat} {src dst : Buffer}

theorem pixel_div (inside : channel < modaddBpl) :
    (modaddBpl * led + channel) / modaddBpl = led := by
  rw [modaddBpl] at inside ⊢
  omega

theorem addressableComposerSet_pixel (here : led < leds) (inside : channel < modaddBpl) :
    addressableComposerSet leds src dst (modaddBpl * led + channel) =
      src (modaddBpl * led + channel) := by
  rw [addressableComposerSet_apply, if_pos (by rwa [pixel_div inside])]

theorem addressableComposerComp_pixel (here : led < leds) (inside : channel < modaddBpl) :
    addressableComposerComp leds src dst (modaddBpl * led + channel) =
      UInt8.ofInt (modaddIntPrelerp (dst (modaddBpl * led + channel)).toNat
        (src (modaddBpl * led + channel)).toNat (src (modaddBpl * led + 3)).toNat) := by
  rw [addressableComposerComp_apply, if_pos (by rwa [pixel_div inside]), composited,
    pixel_div inside]

theorem Premultiplied.zeroed (dst : Buffer) : Premultiplied leds (zeroed leds dst) := by
  intro led here channel inside
  rw [modaddBpl] at inside
  rw [Esp32.zeroed, if_pos (by rw [modaddBpl]; omega)]
  exact UInt8.zero_le

theorem Premultiplied.set (valid : Premultiplied leds src) (dst : Buffer) :
    Premultiplied leds (addressableComposerSet leds src dst) := by
  intro led here channel inside
  rw [addressableComposerSet_pixel here inside, addressableComposerSet_pixel here (by decide)]
  exact valid led here channel inside

theorem Premultiplied.neverWraps (valid : Premultiplied leds src) (dst : Buffer) :
    NeverWraps leds src dst := by
  intro led here channel inside p q a
  have premultiplied : q ≤ a := UInt8.le_iff_toNat_le.mp (valid led here channel inside)
  obtain ⟨least, most⟩ := @modaddIntPrelerp_range a p q (byte_le _) (byte_le _) premultiplied
  exact ⟨least, most, intMult_temporary (byte_le _) (byte_le _)⟩

theorem Premultiplied.comp (valid : Premultiplied leds src) (before : Premultiplied leds dst) :
    Premultiplied leds (addressableComposerComp leds src dst) := by
  intro led here channel inside
  obtain ⟨least, most, -⟩ := valid.neverWraps dst led here channel inside
  obtain ⟨leastAlpha, mostAlpha, -⟩ := valid.neverWraps dst led here 3 (by decide)
  rw [addressableComposerComp_pixel here inside, addressableComposerComp_pixel here (by decide),
    UInt8.le_iff_toNat_le, ← Int.ofNat_le, toNat_ofInt least most,
    toNat_ofInt leastAlpha mostAlpha]
  apply modaddIntPrelerp_mono (byte_le _) (byte_le _)
  · exact UInt8.le_iff_toNat_le.mp (before led here channel inside)
  · exact UInt8.le_iff_toNat_le.mp (valid led here channel inside)

theorem Opaque.comp (hides : Opaque leds src) (here : led < leds) (inside : channel < modaddBpl) :
    addressableComposerComp leds src dst (modaddBpl * led + channel) =
      src (modaddBpl * led + channel) := by
  have full : (255 : UInt8).toNat = 255 := rfl
  have sum := @modaddIntPrelerp_full (dst (modaddBpl * led + channel)).toNat
    (src (modaddBpl * led + channel)).toNat (byte_le _)
  have byte := byte_le (src (modaddBpl * led + channel))
  rw [addressableComposerComp_pixel here inside, hides led here, full, sum]
  apply UInt8.toNat_inj.mp
  exact_mod_cast toNat_ofInt (Int.natCast_nonneg _) (Int.ofNat_le.mpr byte)

end Pixel

/-! ## Stacks of layers -/

section Stack

variable {leds : Nat} {layer : AddressableLayer} {src dst : Buffer}

theorem mixLayer_set (sets : layer.op = .set) (data : layer.data = some src) :
    mixLayer leds dst layer = addressableComposerSet leds src dst := by
  rw [mixLayer, data, sets]
  rfl

theorem mixLayer_comp (composites : layer.op = .comp) (data : layer.data = some src) :
    mixLayer leds dst layer = addressableComposerComp leds src dst := by
  rw [mixLayer, data, composites]
  rfl

/-- A layer of valid pixels that is set or composited. -/
structure AddressableLayer.Paints (layer : AddressableLayer) (leds : Nat) : Prop where
  op : layer.op = .set ∨ layer.op = .comp
  valid : ∃ src, layer.data = some src ∧ Premultiplied leds src

/-- One layer keeps the invariant of the composition data. -/
theorem AddressableLayer.Paints.premultiplied (paints : layer.Paints leds)
    (before : Premultiplied leds dst) : Premultiplied leds (mixLayer leds dst layer) := by
  obtain ⟨src, data, valid⟩ := paints.valid
  cases paints.op with
  | inl sets =>
    rw [mixLayer_set sets data]
    exact valid.set dst
  | inr composites =>
    rw [mixLayer_comp composites data]
    exact valid.comp before

theorem mixLayers_premultiplied {layers : List AddressableLayer}
    (paint : ∀ layer ∈ layers, layer.Paints leds) (before : Premultiplied leds dst) :
    Premultiplied leds (mixLayers leds layers dst) := by
  induction layers generalizing dst with
  | nil => exact before
  | cons layer layers ih =>
    obtain ⟨first, rest⟩ := forall_mem_cons.mp paint
    exact ih rest (first.premultiplied before)

/-- What is claimed of the step of a layer in a stack. -/
structure StepIsSafe (leds : Nat) (layer : AddressableLayer) (src before : Buffer) : Prop where
  neverWraps : layer.op = .comp → NeverWraps leds src before
  premultiplied : Premultiplied leds (mixLayer leds before layer)
  hides : Opaque leds src → ∀ led < leds, ∀ channel < modaddBpl,
    mixLayer leds before layer (modaddBpl * led + channel) = src (modaddBpl * led + channel)

theorem AddressableLayer.Paints.stepIsSafe (paints : layer.Paints leds)
    (data : layer.data = some src) (before : Premultiplied leds dst) :
    StepIsSafe leds layer src dst := by
  obtain ⟨pixels, same, valid⟩ := paints.valid
  cases Option.some.inj (data.symm.trans same)
  constructor
  · intro composites
    exact valid.neverWraps dst
  · exact paints.premultiplied before
  · intro hides led here channel inside
    cases paints.op with
    | inl sets =>
      rw [mixLayer_set sets data]
      exact addressableComposerSet_pixel here inside
    | inr composites =>
      rw [mixLayer_comp composites data]
      exact hides.comp here inside

/-- No step of a stack of set and composited layers wraps, the pixels stay premultiplied, and an
opaque layer hides what is below it. -/
theorem mixLayers_safe {layers : List AddressableLayer}
    (paint : ∀ layer ∈ layers, layer.Paints leds) (compData : Buffer)
    {below rest : List AddressableLayer} (split : layers = below ++ layer :: rest)
    (data : layer.data = some src) :
    StepIsSafe leds layer src (mixLayers leds below (zeroed leds compData)) := by
  subst split
  have paints : layer.Paints leds :=
    paint layer (mem_append_right _ mem_cons_self)
  apply paints.stepIsSafe data
  apply mixLayers_premultiplied _ (Premultiplied.zeroed compData)
  intro lower isLower
  exact paint lower (mem_append_left _ isLower)

end Stack

/-- An opaque white layer composited with a set gray one. -/
theorem mixLayers_safe_two :
    StepIsSafe 2 ⟨.comp, some fun _ => 255⟩ (fun _ => 255)
      (mixLayers 2 [⟨.set, some fun _ => 7⟩] (zeroed 2 fun _ => 0)) := by
  have paint : ∀ layer ∈ [⟨.set, some fun _ => 7⟩, (⟨.comp, some fun _ => 255⟩ : AddressableLayer)],
      layer.Paints 2 := by
    simp only [forall_mem_cons]
    refine ⟨⟨.inl rfl, _, rfl, ?_⟩, ⟨.inr rfl, _, rfl, ?_⟩, forall_mem_nil _⟩
    · exact fun _ _ _ _ => Nat.le_refl _
    · exact fun _ _ _ _ => Nat.le_refl _
  exact mixLayers_safe paint (fun _ => 0) rfl rfl

end MultiPython.Esp32
