import Mathlib

/-!
# Pixels of a frame buffer

The `setpixel` and `getpixel` functions of the formats of `extmod/modframebuf.c`, and
`framebuf_make_new`. A machine word and an `int` have 32 bits, as on the ESP32. The buffer is made of
the units that the functions access: of 16 bits for RGB565, otherwise of bytes.
-/

namespace MultiPython.Framebuf

/-- The formats, in the order of `formats`. -/
inductive Format where
  | mvlsb | rgb565 | gs2Hmsb | gs4Hmsb | gs8 | mhlsb | mhmsb
deriving DecidableEq

/-- `mp_obj_framebuf_t`, but for the buffer. -/
structure FrameBuffer where
  width : Nat
  height : Nat
  stride : Nat
  format : Format
deriving DecidableEq

/-- How many pixels a unit has, next to each other in a row or one below the other. -/
def Format.pixelsPerUnit : Format → Nat
  | .mvlsb | .mhlsb | .mhmsb => 8
  | .gs2Hmsb => 4
  | .gs4Hmsb => 2
  | .rgb565 | .gs8 => 1

/-- What `framebuf_make_new` rounds the stride up to. -/
def Format.granule (format : Format) : Nat :=
  if format = .mvlsb then 1 else format.pixelsPerUnit

/-- `framebuf_make_new`; the fields have 16 bits. -/
def framebufMakeNew (width height : Int) (format : Format) (stride : Option Int) : FrameBuffer :=
  let stride := ((stride.getD width) % 2 ^ 16).toNat
  { width := (width % 2 ^ 16).toNat
    height := (height % 2 ^ 16).toNat
    stride := (stride + (format.granule - 1)) / format.granule * format.granule % 2 ^ 16
    format := format }

/-- A value of type `int`. -/
def int (value : Int) : Int := value.bmod (2 ^ 32)

/-- The bits of a pixel: a unit, and where they are in it. -/
structure Place where
  index : Int
  shift : Nat
  depth : Nat

/-- The colour as `setpixel` puts it into the bits of a pixel. -/
def Format.bits (format : Format) (col : Nat) : Nat :=
  match format with
  | .mvlsb | .mhlsb | .mhmsb => if col ≠ 0 then 1 else 0
  | .rgb565 => col % 2 ^ 16
  | .gs2Hmsb => col % 2 ^ 2
  | .gs4Hmsb => col % 2 ^ 4
  | .gs8 => col % 2 ^ 8

namespace FrameBuffer

variable (fb : FrameBuffer)

/-- `x + y * fb->stride`. -/
def linear (x y : Int) : Int := int (x + y * fb.stride)

/-- Where the functions of the format access a pixel. -/
def place (x y : Int) : Place :=
  match fb.format with
  | .mhlsb => ⟨fb.linear x y / 2 ^ 3, 7 - (x % 8).toNat, 1⟩
  | .mhmsb => ⟨fb.linear x y / 2 ^ 3, (x % 8).toNat, 1⟩
  | .mvlsb => ⟨int (y / 2 ^ 3 * fb.stride + x), (y % 8).toNat, 1⟩
  | .rgb565 => ⟨fb.linear x y, 0, 16⟩
  | .gs2Hmsb => ⟨fb.linear x y / 2 ^ 2, 2 * (x % 4).toNat, 2⟩
  | .gs4Hmsb => ⟨fb.linear x y / 2, if x % 2 = 0 then 4 else 0, 4⟩
  | .gs8 => ⟨fb.linear x y, 0, 8⟩

/-- How many units `height` rows need. -/
def units : Nat :=
  if fb.format = .mvlsb then (fb.height + 7) / 8 * fb.stride
  else fb.stride / fb.format.granule * fb.height

/-- The pixel is in the frame. -/
def Inside (x y : Int) : Prop := 0 ≤ x ∧ x < fb.width ∧ 0 ≤ y ∧ y < fb.height

instance (x y : Int) : Decidable (fb.Inside x y) := inferInstanceAs (Decidable (_ ∧ _))

/-- The number of the pixel is an `int`, or not computed. -/
def Fits (x y : Int) : Prop := fb.format = .mvlsb ∨ x + y * fb.stride < 2 ^ 31

instance (x y : Int) : Decidable (fb.Fits x y) := inferInstanceAs (Decidable (_ ∨ _))

end FrameBuffer

/-- The bits of a pixel in a unit. -/
def look (unit shift depth : Nat) : Nat := (unit >>> shift) % 2 ^ depth

/-- A unit after the bits of a pixel were replaced. -/
def paint (unit shift depth bits : Nat) : Nat :=
  (unit ^^^ (unit &&& ((2 ^ depth - 1) <<< shift))) ||| (bits <<< shift)

/-- The formats' `getpixel`. It fails outside of the buffer, which has `size` units. -/
def getpixel (fb : FrameBuffer) (size : Nat) (buf : Nat → Nat) (x y : Int) : Option Nat :=
  let p := fb.place x y
  if 0 ≤ p.index ∧ p.index < size then some (look (buf p.index.toNat) p.shift p.depth) else none

/-- The formats' `setpixel`. It fails outside of the buffer, which has `size` units. -/
def setpixel (fb : FrameBuffer) (size : Nat) (buf : Nat → Nat) (x y : Int) (col : Nat) :
    Option (Nat → Nat) :=
  let p := fb.place x y
  if 0 ≤ p.index ∧ p.index < size then
    some (Function.update buf p.index.toNat
      (paint (buf p.index.toNat) p.shift p.depth (fb.format.bits col)))
  else none

/-! ## Units -/

/-- How many bits a pixel has. -/
def Format.depth : Format → Nat
  | .mvlsb | .mhlsb | .mhmsb => 1
  | .gs2Hmsb => 2
  | .gs4Hmsb => 4
  | .gs8 => 8
  | .rgb565 => 16

theorem bits_lt (format : Format) (col : Nat) : format.bits col < 2 ^ format.depth := by
  cases format with
  | mvlsb | mhlsb | mhmsb => rw [Format.bits]; split_ifs <;> decide
  | rgb565 | gs2Hmsb | gs4Hmsb | gs8 => exact Nat.mod_lt _ (by decide)

theorem bits_of_lt (format : Format) {col : Nat} (small : col < 2 ^ format.depth) :
    format.bits col = col := by
  cases format with
  | mvlsb | mhlsb | mhmsb =>
    have cases_ : col < 2 := small
    rw [Format.bits]
    split_ifs <;> omega
  | rgb565 | gs2Hmsb | gs4Hmsb | gs8 => exact Nat.mod_eq_of_lt small

theorem look_lt (unit shift depth : Nat) : look unit shift depth < 2 ^ depth :=
  Nat.mod_lt _ (Nat.two_pow_pos _)

theorem testBit_look (unit shift depth i : Nat) :
    (look unit shift depth).testBit i = (decide (i < depth) && unit.testBit (shift + i)) := by
  rw [look, Nat.testBit_mod_two_pow, Nat.testBit_shiftRight]

theorem testBit_paint {bits depth : Nat} (small : bits < 2 ^ depth) (unit shift i : Nat) :
    (paint unit shift depth bits).testBit i =
      if shift ≤ i ∧ i < shift + depth then bits.testBit (i - shift) else unit.testBit i := by
  rw [paint, Nat.testBit_or, Nat.testBit_xor, Nat.testBit_and, Nat.testBit_shiftLeft,
    Nat.testBit_shiftLeft, Nat.testBit_two_pow_sub_one]
  by_cases above : shift ≤ i
  · by_cases below : i < shift + depth
    · have inside : i - shift < depth := by omega
      simp [above, below, inside]
    · have outside : ¬i - shift < depth := by omega
      have zero : bits.testBit (i - shift) = false :=
        Nat.testBit_lt_two_pow (small.trans_le (Nat.pow_le_pow_right (by decide) (by omega)))
      simp [above, below, outside, zero]
  · simp [above]

theorem look_ext {unit shift depth value : Nat} (small : value < 2 ^ depth)
    (same : ∀ i < depth, unit.testBit (shift + i) = value.testBit i) :
    look unit shift depth = value := by
  apply Nat.eq_of_testBit_eq
  intro i
  rw [testBit_look]
  by_cases inside : i < depth
  · simp [inside, same]
  · have zero : value.testBit i = false :=
      Nat.testBit_lt_two_pow (small.trans_le (Nat.pow_le_pow_right (by decide) (by omega)))
    simp [inside, zero]

theorem look_paint {bits depth : Nat} (small : bits < 2 ^ depth) (unit shift : Nat) :
    look (paint unit shift depth bits) shift depth = bits := by
  apply look_ext small
  intro i inside
  simp [testBit_paint small, inside]

theorem look_paint_apart {bits depth slot other : Nat} (small : bits < 2 ^ depth) (unit : Nat)
    (apart : slot ≠ other) :
    look (paint unit (slot * depth) depth bits) (other * depth) depth =
      look unit (other * depth) depth := by
  apply look_ext (look_lt _ _ _)
  intro i inside
  rw [testBit_look, testBit_paint small, decide_eq_true inside, Bool.true_and, if_neg]
  rcases Nat.lt_or_gt_of_ne apart with below | above
  · have step := Nat.mul_le_mul_right depth below
    rw [Nat.succ_mul] at step
    omega
  · have step := Nat.mul_le_mul_right depth above
    rw [Nat.succ_mul] at step
    omega

/-! ## Frames -/

/-- Which of the pixels of a unit has the bits at its low end, and so on. -/
def Format.slot : Format → Nat → Nat
  | .mhlsb, rest => 7 - rest
  | .gs4Hmsb, rest => 1 - rest
  | _, rest => rest

theorem slot_injective {format : Format} {one other : Nat} (isOne : one < format.pixelsPerUnit)
    (isOther : other < format.pixelsPerUnit) (same : format.slot one = format.slot other) :
    one = other := by
  cases format <;> simp only [Format.pixelsPerUnit, Format.slot] at isOne isOther same <;> omega

theorem int_of_lt {n : Nat} (small : n < 2 ^ 31) : int n = n := by
  apply Int.bmod_eq_of_le_mul_two <;> omega

theorem int_neg {n : Nat} (large : 2 ^ 31 ≤ n) (small : n < 2 ^ 32) : int n < 0 := by
  have moved : int n = int ((n : Int) - 2 ^ 32) := by
    rw [int, int, show ((n : Int) - 2 ^ 32) = n + (-1) * ((2 ^ 32 : Nat) : Int) by push_cast; ring,
      Int.add_mul_bmod_self_right]
  rw [moved, int, Int.bmod_eq_of_le_mul_two] <;> omega

theorem row_unique {stride one other row otherRow : Nat} (isOne : one < stride)
    (isOther : other < stride) (same : one + row * stride = other + otherRow * stride) :
    one = other ∧ row = otherRow := by
  have places := congrArg (· % stride) same
  have rows := congrArg (· / stride) same
  have positive : 0 < stride := Nat.zero_lt_of_lt isOne
  simp only [Nat.add_mul_mod_self_right, Nat.mod_eq_of_lt isOne, Nat.mod_eq_of_lt isOther] at places
  simp only [Nat.add_mul_div_right _ _ positive, Nat.div_eq_of_lt isOne,
    Nat.div_eq_of_lt isOther, Nat.zero_add] at rows
  exact ⟨places, rows⟩

namespace FrameBuffer

variable (fb : FrameBuffer)

/-- A frame buffer as `framebuf_make_new` leaves it, whose stride is not below its width. -/
structure Made : Prop where
  small : fb.width < 2 ^ 16 ∧ fb.height < 2 ^ 16 ∧ fb.stride < 2 ^ 16
  wide : fb.width ≤ fb.stride
  aligned : fb.format.granule ∣ fb.stride

/-- The unit of a pixel that has a number. -/
def unitOf (i j : Nat) : Nat :=
  if fb.format = .mvlsb then j / 8 * fb.stride + i
  else (i + j * fb.stride) / fb.format.pixelsPerUnit

/-- Where a pixel is in its unit. -/
def slotOf (i j : Nat) : Nat :=
  fb.format.slot ((if fb.format = .mvlsb then j else i) % fb.format.pixelsPerUnit)

end FrameBuffer

theorem framebufMakeNew_made (width height : Int) (format : Format) (stride : Option Int)
    (wide : (framebufMakeNew width height format stride).width ≤
      (framebufMakeNew width height format stride).stride) :
    (framebufMakeNew width height format stride).Made where
  small := ⟨by simp only [framebufMakeNew]; omega, by simp only [framebufMakeNew]; omega,
    Nat.mod_lt _ (by decide)⟩
  wide := wide
  aligned := by
    have granule : format.granule ∣ 2 ^ 16 := by cases format <;> decide
    rw [framebufMakeNew, Nat.dvd_mod_iff granule]
    exact Nat.dvd_mul_left _ _

namespace FrameBuffer

variable {fb : FrameBuffer} (made : fb.Made) {i j : Nat} (isX : i < fb.width) (isY : j < fb.height)

include made isX isY

theorem linear_lt : i + j * fb.stride < 2 ^ 32 := by
  obtain ⟨-, height, stride⟩ := made.small
  have rows : j * fb.stride ≤ 65534 * 65535 := Nat.mul_le_mul (by omega) (by omega)
  have wide := made.wide
  omega

theorem vlsb_lt : j / 8 * fb.stride + i < 2 ^ 31 := by
  obtain ⟨-, height, stride⟩ := made.small
  have rows : j / 8 * fb.stride ≤ 8191 * 65535 := Nat.mul_le_mul (by omega) (by omega)
  have wide := made.wide
  omega

theorem place_of_fits (fits : fb.Fits i j) :
    fb.place i j = ⟨fb.unitOf i j, fb.slotOf i j * fb.format.depth, fb.format.depth⟩ := by
  by_cases vlsb : fb.format = .mvlsb
  · have number : int ((j / 8 * fb.stride + i : Nat)) = (j / 8 * fb.stride + i : Nat) :=
      int_of_lt (vlsb_lt made isX isY)
    push_cast at number
    rw [place, unitOf, slotOf, if_pos vlsb, if_pos vlsb, vlsb]
    simp only [Format.slot, Format.depth, Format.pixelsPerUnit, Place.mk.injEq]
    refine ⟨?_, by omega, trivial⟩
    push_cast
    exact number
  · have small : i + j * fb.stride < 2 ^ 31 := by
      rcases fits with is | small
      · exact absurd is vlsb
      · exact_mod_cast small
    have number : fb.linear i j = (i + j * fb.stride : Nat) := by
      rw [linear, ← int_of_lt small]
      push_cast
      rfl
    rw [place, unitOf, slotOf, if_neg vlsb, if_neg vlsb, number]
    generalize i + j * fb.stride = n
    cases format : fb.format with
    | mvlsb => exact absurd format vlsb
    | rgb565 | gs8 => simp [Format.slot, Format.depth, Format.pixelsPerUnit, Nat.mod_one]
    | mhlsb | mhmsb | gs2Hmsb =>
      simp only [Format.slot, Format.depth, Format.pixelsPerUnit, Place.mk.injEq]
      exact ⟨by omega, by omega, trivial⟩
    | gs4Hmsb =>
      simp only [Format.slot, Format.depth, Format.pixelsPerUnit, Place.mk.injEq]
      exact ⟨by omega, by split_ifs <;> omega, trivial⟩

theorem place_of_not_fits (not : ¬fb.Fits i j) : (fb.place i j).index < 0 := by
  rw [Fits, not_or, not_lt] at not
  obtain ⟨vlsb, large⟩ := not
  have number : fb.linear i j < 0 := by
    have isLarge : 2 ^ 31 ≤ i + j * fb.stride := by omega
    have negative := int_neg isLarge (linear_lt made isX isY)
    rw [Nat.cast_add, Nat.cast_mul] at negative
    exact negative
  rw [place]
  cases format : fb.format with
  | mvlsb => exact absurd format vlsb
  | rgb565 | gs8 | mhlsb | mhmsb | gs2Hmsb | gs4Hmsb =>
    simp only
    omega

theorem unitOf_lt : fb.unitOf i j < fb.units := by
  have wide := made.wide
  rw [unitOf, units]
  split_ifs with vlsb
  · have rows : j / 8 + 1 ≤ (fb.height + 7) / 8 := by omega
    have units := Nat.mul_le_mul_right fb.stride rows
    rw [Nat.succ_mul] at units
    omega
  · have granule : fb.format.granule = fb.format.pixelsPerUnit := if_neg vlsb
    have positive : 0 < fb.format.pixelsPerUnit := by cases fb.format <;> decide
    obtain ⟨units, isStride⟩ := granule ▸ made.aligned
    have rows := Nat.mul_le_mul_right fb.stride isY
    rw [Nat.succ_mul] at rows
    have total : fb.height * fb.stride = units * fb.height * fb.format.pixelsPerUnit := by
      rw [isStride]
      ring
    rw [granule, Nat.div_lt_iff_lt_mul positive, isStride, Nat.mul_div_cancel_left _ positive,
      ← isStride, ← total]
    omega

omit isY in
/-- Two pixels do not have the same bits. -/
theorem cell_injective {i' j' : Nat} (isX' : i' < fb.width)
    (sameUnit : fb.unitOf i j = fb.unitOf i' j') (sameSlot : fb.slotOf i j = fb.slotOf i' j') :
    i = i' ∧ j = j' := by
  have wide := made.wide
  have positive : 0 < fb.format.pixelsPerUnit := by cases fb.format <;> decide
  have rest := slot_injective (Nat.mod_lt _ positive) (Nat.mod_lt _ positive) sameSlot
  rw [unitOf, unitOf] at sameUnit
  split_ifs at rest sameUnit with vlsb
  · rw [Nat.add_comm, Nat.add_comm _ i'] at sameUnit
    obtain ⟨sameX, sameRow⟩ := row_unique (by omega) (by omega) sameUnit
    rw [vlsb, Format.pixelsPerUnit] at rest
    exact ⟨sameX, by omega⟩
  · have granule : fb.format.granule = fb.format.pixelsPerUnit := if_neg vlsb
    have low : ∀ i j : Nat, (i + j * fb.stride) % fb.format.pixelsPerUnit =
        i % fb.format.pixelsPerUnit := by
      intro i j
      obtain ⟨units, isStride⟩ := granule ▸ made.aligned
      rw [isStride, Nat.mul_left_comm, Nat.add_mul_mod_self_left]
    rw [← low i j, ← low i' j'] at rest
    have number := Nat.div_add_mod (i + j * fb.stride) fb.format.pixelsPerUnit
    rw [rest, sameUnit, Nat.div_add_mod] at number
    exact row_unique (by omega) (by omega) number.symm

theorem getpixel_of_fits (fits : fb.Fits i j) {size : Nat} (large : fb.units ≤ size)
    (buf : Nat → Nat) :
    getpixel fb size buf i j =
      some (look (buf (fb.unitOf i j)) (fb.slotOf i j * fb.format.depth) fb.format.depth) := by
  have inside := unitOf_lt made isX isY
  rw [getpixel, place_of_fits made isX isY fits]
  simp only [Int.toNat_natCast]
  rw [if_pos (by omega)]

end FrameBuffer

section Access

variable {fb : FrameBuffer} (made : fb.Made) {size : Nat} {x y : Int} (inside : fb.Inside x y)

include made inside

theorem getpixel_inside (large : fb.units ≤ size) (fits : fb.Fits x y) (buf : Nat → Nat) :
    ∃ col < 2 ^ fb.format.depth, getpixel fb size buf x y = some col := by
  obtain ⟨atLeastX, isX, atLeastY, isY⟩ := inside
  lift x to Nat using atLeastX
  lift y to Nat using atLeastY
  exact ⟨_, look_lt _ _ _, fb.getpixel_of_fits made (by exact_mod_cast isX) (by exact_mod_cast isY)
    fits large buf⟩

theorem index_neg (not : ¬fb.Fits x y) : (fb.place x y).index < 0 := by
  obtain ⟨atLeastX, isX, atLeastY, isY⟩ := inside
  lift x to Nat using atLeastX
  lift y to Nat using atLeastY
  exact fb.place_of_not_fits made (by exact_mod_cast isX) (by exact_mod_cast isY) not

theorem fits_of_getpixel {buf : Nat → Nat} {col : Nat} (ran : getpixel fb size buf x y = some col) :
    fb.Fits x y := by
  by_contra not
  have negative := index_neg made inside not
  rw [getpixel, if_neg (by omega)] at ran
  cases ran

theorem fits_of_setpixel {buf after : Nat → Nat} {col : Nat}
    (ran : setpixel fb size buf x y col = some after) : fb.Fits x y := by
  by_contra not
  have negative := index_neg made inside not
  rw [setpixel, if_neg (by omega)] at ran
  cases ran

end Access

/-- `setpixel` changes one pixel. -/
theorem setpixel_spec {fb : FrameBuffer} (made : fb.Made) {size : Nat} (large : fb.units ≤ size)
    {x y : Int} (inside : fb.Inside x y) (fits : fb.Fits x y) (buf : Nat → Nat) (col : Nat) :
    ∃ after, setpixel fb size buf x y col = some after ∧
      ∀ x' y', fb.Inside x' y' → getpixel fb size after x' y' =
        if x' = x ∧ y' = y then some (fb.format.bits col) else getpixel fb size buf x' y' := by
  obtain ⟨atLeastX, isX, atLeastY, isY⟩ := inside
  lift x to Nat using atLeastX
  lift y to Nat using atLeastY
  have isX : x < fb.width := by exact_mod_cast isX
  have isY : y < fb.height := by exact_mod_cast isY
  have unit := fb.unitOf_lt made isX isY
  refine ⟨Function.update buf (fb.unitOf x y) (paint (buf (fb.unitOf x y))
    (fb.slotOf x y * fb.format.depth) fb.format.depth (fb.format.bits col)), ?_, ?_⟩
  · rw [setpixel, fb.place_of_fits made isX isY fits]
    simp only [Int.toNat_natCast]
    rw [if_pos (by omega)]
  · rintro x' y' ⟨atLeastX', isX', atLeastY', isY'⟩
    lift x' to Nat using atLeastX'
    lift y' to Nat using atLeastY'
    have isX' : x' < fb.width := by exact_mod_cast isX'
    have isY' : y' < fb.height := by exact_mod_cast isY'
    by_cases fits' : fb.Fits x' y'
    · rw [fb.getpixel_of_fits made isX' isY' fits' large, fb.getpixel_of_fits made isX' isY' fits' large]
      by_cases sameUnit : fb.unitOf x y = fb.unitOf x' y'
      · rw [sameUnit, Function.update_self]
        by_cases sameSlot : fb.slotOf x y = fb.slotOf x' y'
        · obtain ⟨rfl, rfl⟩ := fb.cell_injective made isX isX' sameUnit sameSlot
          rw [if_pos ⟨rfl, rfl⟩, look_paint (bits_lt _ _)]
        · rw [look_paint_apart (bits_lt _ _) _ sameSlot, if_neg]
          rintro ⟨sameX, sameY⟩
          rw [Nat.cast_inj] at sameX sameY
          exact sameSlot (by rw [sameX, sameY])
      · rw [Function.update_of_ne (Ne.symm sameUnit), if_neg]
        rintro ⟨sameX, sameY⟩
        rw [Nat.cast_inj] at sameX sameY
        exact sameUnit (by rw [sameX, sameY])
    · have negative := fb.place_of_not_fits made isX' isY' fits'
      have none_ : ∀ buf, getpixel fb size buf x' y' = none := fun buf => by
        rw [getpixel, if_neg (by omega)]
      rw [none_, none_, if_neg]
      rintro ⟨sameX, sameY⟩
      exact fits' (sameX ▸ sameY ▸ fits)

end MultiPython.Framebuf
