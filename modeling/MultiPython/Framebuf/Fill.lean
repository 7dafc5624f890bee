import MultiPython.Framebuf.Scroll

/-!
# Filling rectangles

The `fill_rect` functions of the formats of `extmod/modframebuf.c`, each with loops of its own, the
`fill_rect` that clips a rectangle to the frame, and the methods that call them.
-/

namespace MultiPython.Framebuf

open List Function

section Model

/-- An assignment to some bits of a unit. -/
structure Store where
  index : Int
  shift : Nat
  depth : Nat
  bits : Nat

/-- An assignment. It fails outside of the buffer, which has `size` units. -/
def Store.run (size : Nat) (buf : Nat → Nat) (s : Store) : Option (Nat → Nat) :=
  if 0 ≤ s.index ∧ s.index < size then
    some (update buf s.index.toNat (paint (buf s.index.toNat) s.shift s.depth s.bits))
  else none

/-- A loop with a pointer: each round makes assignments and moves the pointer. -/
def rounds (round : Int → List Store × Int) : Nat → Int → List Store
  | 0, _ => []
  | h + 1, p => (round p).1 ++ rounds round h (round p).2

namespace FrameBuffer

variable (fb : FrameBuffer) (x y : Int) (w h col : Nat)

/-- The assignment of `setpixel`. -/
def pixelStore : Store :=
  ⟨(fb.place x y).index, (fb.place x y).shift, (fb.place x y).depth, fb.format.bits col⟩

def monoHorizFillRect : List Store :=
  let advance : Nat := fb.stride / 2 ^ 3
  (range w).flatMap fun (i : Nat) =>
    let offset := if fb.format = .mhmsb then ((x + i) % 8).toNat else 7 - ((x + i) % 8).toNat
    rounds (fun b => ([⟨b, offset, 1, fb.format.bits col⟩], b + advance)) h
      (int ((x + i) / 2 ^ 3 + y * advance))

def mvlsbFillRect : List Store :=
  (range h).flatMap fun (j : Nat) => (range w).map fun (i : Nat) =>
    ⟨int ((y + j) / 2 ^ 3 * fb.stride + x) + i, ((y + j) % 8).toNat, 1, fb.format.bits col⟩

def rgb565FillRect : List Store :=
  rounds (fun b => ((range w).map fun (i : Nat) => ⟨b + i, 0, 16, fb.format.bits col⟩,
    b + w + (fb.stride - w))) h (fb.linear x y)

def gs2HmsbFillRect : List Store :=
  (range w).flatMap fun (i : Nat) => (range h).map fun (j : Nat) => fb.pixelStore (x + i) (y + j) col

/-- `gs4_hmsb_fill_rect`: two pixels at a time, but for a first or a last one. -/
def gs4HmsbFillRect : List Store :=
  let col := col % 2 ^ 4
  let oddX := x % 2 = 1
  rounds (fun pixelPair =>
    let first := if oddX ∧ 0 < w then 1 else 0
    let ww := w - first
    let behind := pixelPair + first + (ww / 2 : Nat)
    ((if first = 1 then [⟨pixelPair, 0, 4, col⟩] else []) ++
        (range (ww / 2)).map (fun (k : Nat) => ⟨pixelPair + first + k, 0, 8, col * 2 ^ 4 + col⟩) ++
        if ww % 2 = 1 then [⟨behind, 4, 4, col⟩] else [],
      behind + (if ww % 2 = 1 ∧ ¬oddX then 1 else 0) + ((fb.stride : Int) - w) / 2)) h
    (fb.linear x y / 2)

def gs8FillRect : List Store :=
  rounds (fun pixel => ((range w).map fun (i : Nat) => ⟨pixel + i, 0, 8, fb.format.bits col⟩,
    pixel + fb.stride)) h (fb.linear x y)

/-- The `fill_rect` of the format. -/
def formatFillRect : List Store :=
  match fb.format with
  | .mhlsb | .mhmsb => fb.monoHorizFillRect x y w h col
  | .mvlsb => fb.mvlsbFillRect x y w h col
  | .rgb565 => fb.rgb565FillRect x y w h col
  | .gs2Hmsb => fb.gs2HmsbFillRect x y w h col
  | .gs4Hmsb => fb.gs4HmsbFillRect x y w h col
  | .gs8 => fb.gs8FillRect x y w h col

end FrameBuffer

variable (fb : FrameBuffer) (size : Nat) (buf : Nat → Nat) (x y w h col : Int)

/-- `framebuf_fill_rect`, with the `fill_rect` that clips to the frame. -/
def framebufFillRect : Option (Nat → Nat) :=
  if h < 1 ∨ w < 1 ∨ int (x + w) ≤ 0 ∨ int (y + h) ≤ 0 ∨ fb.height ≤ y ∨ fb.width ≤ x then some buf
  else
    let xend := min (fb.width : Int) (int (x + w))
    let yend := min (fb.height : Int) (int (y + h))
    let x := max x 0
    let y := max y 0
    (fb.formatFillRect x y (xend - x).toNat (yend - y).toNat (col % 2 ^ 32).toNat).foldlM
      (Store.run size) buf

def framebufHline : Option (Nat → Nat) := framebufFillRect fb size buf x y w 1 col

def framebufVline : Option (Nat → Nat) := framebufFillRect fb size buf x y 1 h col

def framebufFill : Option (Nat → Nat) :=
  (fb.formatFillRect 0 0 fb.width fb.height (col % 2 ^ 32).toNat).foldlM (Store.run size) buf

/-- A value of type `int`. -/
def IsInt (value : Int) : Prop := -2 ^ 31 ≤ value ∧ value < 2 ^ 31

/-- The pixel is in the frame and in the rectangle. -/
def Visible (px py : Int) : Prop :=
  fb.Inside px py ∧ x ≤ px ∧ px < x + w ∧ y ≤ py ∧ py < y + h

/-- A bit of the buffer is one of the pixel. -/
def FrameBuffer.HasBit (px py : Int) (unit bit : Nat) : Prop :=
  (fb.place px py).index = unit ∧ (fb.place px py).shift ≤ bit ∧
    bit < (fb.place px py).shift + (fb.place px py).depth

/-- A function changes the visible pixels of a rectangle to a colour, and no other bit. -/
def Fills (run : Nat → (Nat → Nat) → Option (Nat → Nat)) : Prop :=
  ∀ size buf, fb.units ≤ size → ∃ after, run size buf = some after ∧
    (∀ px py, fb.Inside px py →
      (Visible fb x y w h px py →
        getpixel fb size after px py = some (fb.format.bits (col % 2 ^ 32).toNat)) ∧
      (¬Visible fb x y w h px py → getpixel fb size after px py = getpixel fb size buf px py)) ∧
    ∀ unit bit, (∀ px py, Visible fb x y w h px py → ¬fb.HasBit px py unit bit) →
      (after unit).testBit bit = (buf unit).testBit bit

/-- For each pixel that is visible, the ends of the rectangle and its number are an `int`. -/
def RectFits : Prop :=
  ∀ px py, Visible fb x y w h px py → x + w < 2 ^ 31 ∧ y + h < 2 ^ 31 ∧ fb.Fits px py

end Model

/-! ## Assignments -/

/-- Assignments that agree on the bits that they have in common. -/
theorem stores_run {stores : List Store} {size : Nat} {value : Nat → Bool}
    (valid : ∀ s ∈ stores, 0 ≤ s.index ∧ s.index < size ∧ s.bits < 2 ^ s.depth ∧
      ∀ bit, s.shift ≤ bit → bit < s.shift + s.depth → s.bits.testBit (bit - s.shift) = value bit)
    (buf : Nat → Nat) :
    ∃ after, stores.foldlM (Store.run size) buf = some after ∧ ∀ unit bit : Nat,
      ((∃ s ∈ stores, s.index = unit ∧ s.shift ≤ bit ∧ bit < s.shift + s.depth) →
        (after unit).testBit bit = value bit) ∧
      ((∀ s ∈ stores, s.index = unit → s.shift ≤ bit → ¬bit < s.shift + s.depth) →
        (after unit).testBit bit = (buf unit).testBit bit) := by
  induction stores generalizing buf with
  | nil => exact ⟨buf, rfl, fun unit bit => ⟨by simp, fun _ => rfl⟩⟩
  | cons s rest ih =>
    obtain ⟨atLeast, below, small, agrees⟩ := valid s mem_cons_self
    obtain ⟨index, isIndex⟩ := Int.eq_ofNat_of_zero_le atLeast
    obtain ⟨after, ran, spec⟩ := ih (fun s member => valid s (mem_cons_of_mem _ member))
      (update buf index (paint (buf index) s.shift s.depth s.bits))
    have first : s.run size buf =
        some (update buf index (paint (buf index) s.shift s.depth s.bits)) := by
      rw [Store.run, if_pos ⟨atLeast, below⟩, isIndex, Int.toNat_natCast]
    have painted : ∀ unit bit : Nat,
        (update buf index (paint (buf index) s.shift s.depth s.bits) unit).testBit bit =
          if s.index = unit ∧ s.shift ≤ bit ∧ bit < s.shift + s.depth then value bit
          else (buf unit).testBit bit := by
      intro unit bit
      simp only [isIndex, Nat.cast_inj]
      by_cases same : index = unit
      · subst same
        rw [update_self, testBit_paint small]
        split_ifs with inside both neither
        · exact agrees bit inside.1 inside.2
        · exact absurd ⟨rfl, inside⟩ both
        · exact absurd neither.2 inside
        · rfl
      · rw [update_of_ne (Ne.symm same), if_neg fun both => same both.1]
    refine ⟨after, by rw [foldlM_cons, first]; exact ran, fun unit bit => ⟨?_, fun others => ?_⟩⟩
    · rintro ⟨t, member, covers⟩
      by_cases later : ∃ s ∈ rest, s.index = unit ∧ s.shift ≤ bit ∧ bit < s.shift + s.depth
      · exact (spec unit bit).1 later
      · have isFirst : t = s :=
          (mem_cons.mp member).resolve_right fun there => later ⟨t, there, covers⟩
        rw [(spec unit bit).2 fun s there index least most => later ⟨s, there, index, least, most⟩,
          painted, if_pos (isFirst ▸ covers)]
    · rw [(spec unit bit).2 fun s there => others s (mem_cons_of_mem _ there), painted,
        if_neg fun covers => others s mem_cons_self covers.1 covers.2.1 covers.2.2]

theorem mem_rounds {round : Int → List Store × Int} {step : Int}
    (moves : ∀ p, (round p).2 = p + step) (h : Nat) (p : Int) (s : Store) :
    s ∈ rounds round h p ↔ ∃ j < h, s ∈ (round (p + j * step)).1 := by
  induction h generalizing p with
  | zero => simp [rounds]
  | succ h ih =>
    rw [rounds, mem_append, ih, moves, Nat.exists_lt_succ_left]
    simp only [Nat.cast_zero, Int.zero_mul, Int.add_zero, Nat.cast_succ]
    refine or_congr_right (exists_congr fun j => and_congr_right fun _ => ?_)
    rw [show p + step + j * step = p + (j + 1) * step by ring]

/-! ## Pixels -/

/-- Assignments to exactly the bits of the pixels of a rectangle. -/
structure Paints (fb : FrameBuffer) (x y w h col : Nat) (stores : List Store) : Prop where
  only : ∀ s ∈ stores, 0 < s.depth ∧ s.bits < 2 ^ s.depth ∧
    ∀ bit, s.shift ≤ bit → bit < s.shift + s.depth →
      s.bits.testBit (bit - s.shift) = (fb.format.bits col).testBit (bit % fb.format.depth) ∧
      ∃ i < w, ∃ j < h, s.index = fb.unitOf (x + i) (y + j) ∧
        bit / fb.format.depth = fb.slotOf (x + i) (y + j)
  all : ∀ i < w, ∀ j < h, ∀ bit, bit / fb.format.depth = fb.slotOf (x + i) (y + j) →
    ∃ s ∈ stores, s.index = fb.unitOf (x + i) (y + j) ∧ s.shift ≤ bit ∧ bit < s.shift + s.depth

section Formats

variable {fb : FrameBuffer} (made : fb.Made) {x y w h : Nat} (isX : x + w ≤ fb.width)
  (isY : y + h ≤ fb.height) (fits : ∀ i < w, ∀ j < h, fb.Fits (x + i : Nat) (y + j : Nat)) (col : Nat)

theorem depth_pos (format : Format) : 0 < format.depth := by
  cases format <;> decide

/-- Assignments of one pixel each. -/
theorem paints_of_pixels {stores : List Store}
    (are : ∀ s, s ∈ stores ↔ ∃ i < w, ∃ j < h, s = ⟨fb.unitOf (x + i) (y + j),
      fb.slotOf (x + i) (y + j) * fb.format.depth, fb.format.depth, fb.format.bits col⟩) :
    Paints fb x y w h col stores where
  only := by
    intro s member
    obtain ⟨i, isI, j, isJ, rfl⟩ := (are s).mp member
    refine ⟨depth_pos _, bits_lt _ _, fun bit least most => ?_⟩
    have slot : bit / fb.format.depth = fb.slotOf (x + i) (y + j) :=
      Nat.div_eq_of_lt_le least (by rw [Nat.succ_mul]; exact most)
    refine ⟨?_, i, isI, j, isJ, rfl, slot⟩
    rw [Nat.mod_eq_sub, slot, Nat.mul_comm]
  all := by
    intro i isI j isJ bit slot
    refine ⟨_, (are _).mpr ⟨i, isI, j, isJ, rfl⟩, rfl, ?_, ?_⟩
    · rw [← slot]
      exact Nat.div_mul_le_self _ _
    · rw [← slot]
      exact Nat.lt_div_mul_add (depth_pos _)

theorem number_lt (fits : ∀ i < w, ∀ j < h, fb.Fits (x + i : Nat) (y + j : Nat))
    (linear : fb.format ≠ .mvlsb) {i j : Nat} (isI : i < w) (isJ : j < h) :
    x + i + (y * fb.stride + j * fb.stride) < 2 ^ 31 := by
  rcases fits i isI j isJ with vlsb | small
  · exact absurd vlsb linear
  · rw [← Nat.add_mul]
    exact_mod_cast small

/-- Row by row or column by column. -/
theorem pixels_rows {f g : Nat → Nat → Store} (same : ∀ i < w, ∀ j < h, f i j = g i j) (s : Store) :
    (∃ j < h, ∃ i < w, f i j = s) ↔ ∃ i < w, ∃ j < h, s = g i j := by
  constructor
  · rintro ⟨j, isJ, i, isI, rfl⟩
    exact ⟨i, isI, j, isJ, same i isI j isJ⟩
  · rintro ⟨i, isI, j, isJ, rfl⟩
    exact ⟨j, isJ, i, isI, same i isI j isJ⟩

include fits

theorem linear_row (linear : fb.format ≠ .mvlsb) {i j : Nat} (isI : i < w) (isJ : j < h) :
    fb.linear x y + j * fb.stride + i = (x + i + (y + j) * fb.stride : Nat) := by
  have number := number_lt fits linear isI isJ
  rw [FrameBuffer.linear, int_eq (by omega) (by omega), Nat.add_mul]
  omega

theorem rgb565FillRect_paints (is : fb.format = .rgb565) :
    Paints fb x y w h col (fb.rgb565FillRect x y w h col) := by
  apply paints_of_pixels
  intro s
  rw [FrameBuffer.rgb565FillRect, mem_rounds fun p => Int.add_assoc p w (fb.stride - w)]
  simp only [mem_map, mem_range]
  apply pixels_rows
  intro i isI j isJ
  rw [add_sub_cancel, linear_row fits (by simp [is]) isI isJ]
  simp [FrameBuffer.unitOf, FrameBuffer.slotOf, is, Format.slot, Format.depth,
    Format.pixelsPerUnit, Nat.mod_one]

theorem gs8FillRect_paints (is : fb.format = .gs8) :
    Paints fb x y w h col (fb.gs8FillRect x y w h col) := by
  apply paints_of_pixels
  intro s
  rw [FrameBuffer.gs8FillRect, mem_rounds fun _ => rfl]
  simp only [mem_map, mem_range]
  apply pixels_rows
  intro i isI j isJ
  rw [linear_row fits (by simp [is]) isI isJ]
  simp [FrameBuffer.unitOf, FrameBuffer.slotOf, is, Format.slot, Format.depth,
    Format.pixelsPerUnit, Nat.mod_one]

include made

theorem monoHorizFillRect_paints (mono : fb.format = .mhlsb ∨ fb.format = .mhmsb) :
    Paints fb x y w h col (fb.monoHorizFillRect x y w h col) := by
  obtain ⟨advance, isStride⟩ : 8 ∣ fb.stride := by
    have aligned := made.aligned
    rcases mono with is | is <;> rwa [is] at aligned
  have isAdvance : fb.stride / 2 ^ 3 = advance := by omega
  apply paints_of_pixels
  intro s
  simp only [FrameBuffer.monoHorizFillRect, mem_flatMap, mem_range, isAdvance]
  refine exists_congr fun i => and_congr_right fun isI => ?_
  rw [mem_rounds fun _ => rfl]
  refine exists_congr fun j => and_congr_right fun isJ => ?_
  have number := number_lt fits (by rcases mono with is | is <;> simp [is]) isI isJ
  rw [isStride, Nat.mul_left_comm, Nat.mul_left_comm j] at number
  rw [mem_singleton, int_eq (by omega) (by omega)]
  have unit : ((x : Int) + i) / 8 + y * advance + j * advance = fb.unitOf (x + i) (y + j) := by
    have unit : fb.unitOf (x + i) (y + j) = (x + i + (y + j) * fb.stride) / 8 := by
      rcases mono with is | is <;> simp [FrameBuffer.unitOf, is, Format.pixelsPerUnit]
    rw [unit, isStride, Nat.add_mul, Nat.mul_left_comm, Nat.mul_left_comm j]
    omega
  have offset : (((x : Int) + i) % 8).toNat = (x + i) % 8 := by omega
  rcases mono with is | is <;>
    simp [unit, offset, is, FrameBuffer.slotOf, Format.slot, Format.depth, Format.pixelsPerUnit]

theorem gs4HmsbFillRect_paints (is : fb.format = .gs4Hmsb) :
    Paints fb x y w h col (fb.gs4HmsbFillRect x y w h col) := by
  obtain ⟨half, isStride⟩ : 2 ∣ fb.stride := by
    have aligned := made.aligned
    rwa [is] at aligned
  obtain ⟨first, isFirst⟩ : ∃ first, first = if (x : Int) % 2 = 1 ∧ 0 < w then 1 else 0 := ⟨_, rfl⟩
  have wide := made.wide
  -- where the rows start
  have mem : ∀ s, s ∈ fb.gs4HmsbFillRect x y w h col ↔ ∃ j < h,
      (first = 1 ∧ s = ⟨fb.linear x y / 2 + j * half, 0, 4, col % 2 ^ 4⟩ ∨
        ∃ k < (w - first) / 2, s = ⟨fb.linear x y / 2 + j * half + first + k, 0, 8,
          col % 2 ^ 4 * 2 ^ 4 + col % 2 ^ 4⟩) ∨
      (w - first) % 2 = 1 ∧
        s = ⟨fb.linear x y / 2 + j * half + first + ((w - first) / 2 : Nat), 4, 4, col % 2 ^ 4⟩ := by
    intro s
    rw [FrameBuffer.gs4HmsbFillRect]
    simp only [← isFirst]
    rw [@mem_rounds _ half]
    · simp only [mem_append, mem_ite_nil_right, mem_singleton, mem_map, mem_range, eq_comm]
    · intro p
      simp only
      split_ifs at isFirst ⊢ <;> omega
  have unit : ∀ i < w, ∀ j < h, fb.linear x y + j * fb.stride + i =
      (x + i + (y + j) * fb.stride : Nat) ∧
      fb.unitOf (x + i) (y + j) = (x + i + (y + j) * fb.stride) / 2 := by
    intro i isI j isJ
    refine ⟨linear_row fits (by simp [is]) isI isJ, ?_⟩
    simp [FrameBuffer.unitOf, is, Format.pixelsPerUnit]
  generalize fb.linear x y = start at *
  have unit : ∀ i < w, ∀ j < h, start % 2 = x % 2 ∧
      (fb.unitOf (x + i) (y + j) : Int) = (start + i) / 2 + j * half := by
    intro i isI j isJ
    obtain ⟨number, isUnit⟩ := unit i isI j isJ
    rw [isStride, Nat.mul_left_comm, Nat.cast_mul, Int.mul_left_comm] at number
    rw [isUnit, isStride, Nat.mul_left_comm]
    omega
  have slot : ∀ i j, fb.slotOf (x + i) (y + j) = 1 - (x + i) % 2 := by
    intro i j
    simp [FrameBuffer.slotOf, is, Format.slot, Format.pixelsPerUnit]
  have depth : fb.format.depth = 4 := by rw [is]; rfl
  have bits : fb.format.bits col = col % 2 ^ 4 := by rw [is]; rfl
  have small : col % 2 ^ 4 < 2 ^ 4 := Nat.mod_lt _ (Nat.two_pow_pos 4)
  have parity : 0 < w ∧ first = x % 2 ∨ w = 0 ∧ first = 0 := by
    split_ifs at isFirst <;> omega
  clear isFirst
  generalize col % 2 ^ 4 = c at *
  constructor
  · intro s member
    simp only [depth, bits, slot]
    obtain ⟨j, isJ, (⟨one, rfl⟩ | ⟨k, isK, rfl⟩) | ⟨odd, rfl⟩⟩ := (mem s).mp member
    · obtain ⟨even, isUnit⟩ := unit 0 (by omega) j isJ
      refine ⟨Nat.succ_pos 3, small, fun bit least most => ?_⟩
      simp only [Nat.zero_add, Nat.sub_zero] at most ⊢
      rw [Nat.mod_eq_of_lt most]
      exact ⟨rfl, 0, by omega, j, isJ, by omega, by omega⟩
    · refine ⟨Nat.succ_pos 7, by simp only; omega, fun bit least most => ?_⟩
      simp only [Nat.zero_add, Nat.sub_zero] at most ⊢
      rw [Nat.mul_comm, Nat.testBit_two_pow_mul_add _ small]
      by_cases low : bit < 4
      · obtain ⟨even, isUnit⟩ := unit (first + 2 * k + 1) (by omega) j isJ
        rw [if_pos low, Nat.mod_eq_of_lt low]
        exact ⟨rfl, first + 2 * k + 1, by omega, j, isJ, by omega, by omega⟩
      · obtain ⟨even, isUnit⟩ := unit (first + 2 * k) (by omega) j isJ
        rw [if_neg low, show bit % 4 = bit - 4 by omega]
        exact ⟨rfl, first + 2 * k, by omega, j, isJ, by omega, by omega⟩
    · obtain ⟨even, isUnit⟩ := unit (w - 1) (by omega) j isJ
      refine ⟨Nat.succ_pos 3, small, fun bit least most => ?_⟩
      simp only at least most ⊢
      rw [show bit % 4 = bit - 4 by omega]
      exact ⟨rfl, w - 1, by omega, j, isJ, by omega, by omega⟩
  · intro i isI j isJ bit isBit
    obtain ⟨even, isUnit⟩ := unit i isI j isJ
    rw [depth, slot] at isBit
    simp only [mem]
    by_cases isFirst : i < first
    · exact ⟨_, ⟨j, isJ, Or.inl (Or.inl ⟨by omega, rfl⟩)⟩, by simp only; omega, by simp only; omega,
        by simp only; omega⟩
    by_cases inPair : (i - first) / 2 < (w - first) / 2
    · exact ⟨_, ⟨j, isJ, Or.inl (Or.inr ⟨_, inPair, rfl⟩)⟩, by simp only; omega, by simp only; omega,
        by simp only; omega⟩
    · exact ⟨_, ⟨j, isJ, Or.inr ⟨by omega, rfl⟩⟩, by simp only; omega, by simp only; omega,
        by simp only; omega⟩

include isX isY

theorem gs2HmsbFillRect_paints : Paints fb x y w h col (fb.gs2HmsbFillRect x y w h col) := by
  apply paints_of_pixels
  intro s
  simp only [FrameBuffer.gs2HmsbFillRect, mem_flatMap, mem_map, mem_range]
  refine exists_congr fun i => and_congr_right fun isI => ?_
  refine exists_congr fun j => and_congr_right fun isJ => ?_
  have placed := fb.place_of_fits made (by omega) (by omega) (fits i isI j isJ)
  rw [Nat.cast_add, Nat.cast_add] at placed
  rw [FrameBuffer.pixelStore, placed, eq_comm]

omit fits in
theorem mvlsbFillRect_paints (vlsb : fb.format = .mvlsb) :
    Paints fb x y w h col (fb.mvlsbFillRect x y w h col) := by
  apply paints_of_pixels
  intro s
  simp only [FrameBuffer.mvlsbFillRect, mem_flatMap, mem_map, mem_range]
  apply pixels_rows
  intro i isI j isJ
  have small := fb.vlsb_lt made (by omega : x + i < fb.width) (by omega : y + j < fb.height)
  have row : ((y : Int) + j) / 2 ^ 3 = ((y + j) / 8 : Nat) := by omega
  rw [row, int_eq (by omega) (by omega)]
  simp [FrameBuffer.unitOf, FrameBuffer.slotOf, vlsb, Format.slot, Format.depth,
    Format.pixelsPerUnit]
  omega

theorem formatFillRect_paints : Paints fb x y w h col (fb.formatFillRect x y w h col) := by
  rw [FrameBuffer.formatFillRect]
  cases is : fb.format with
  | mhlsb => exact monoHorizFillRect_paints made fits col (Or.inl is)
  | mhmsb => exact monoHorizFillRect_paints made fits col (Or.inr is)
  | mvlsb => exact mvlsbFillRect_paints made isX isY col is
  | rgb565 => exact rgb565FillRect_paints fits col is
  | gs2Hmsb => exact gs2HmsbFillRect_paints made isX isY fits col
  | gs4Hmsb => exact gs4HmsbFillRect_paints made fits col is
  | gs8 => exact gs8FillRect_paints fits col is

end Formats

/-! ## Rectangles -/

section Rectangles

variable {fb : FrameBuffer} (made : fb.Made)

include made

/-- The `fill_rect` of the format, for the part of a rectangle that is in the frame. -/
theorem formatFillRect_fills {x y w h col : Int} {px py pw ph : Nat} (isX : px + pw ≤ fb.width)
    (isY : py + ph ≤ fb.height) (isVisible : ∀ i j, Visible fb x y w h i j ↔
      px ≤ i ∧ i < px + pw ∧ py ≤ j ∧ j < py + ph)
    (fits : ∀ i j, Visible fb x y w h i j → fb.Fits i j) :
    Fills fb x y w h col fun size buf =>
      (fb.formatFillRect px py pw ph (col % 2 ^ 32).toNat).foldlM (Store.run size) buf := by
  intro size buf large
  obtain ⟨only, all⟩ := formatFillRect_paints made isX isY
    (fun i isI j isJ => fits _ _ ((isVisible _ _).mpr (by omega))) (col % 2 ^ 32).toNat
  obtain ⟨after, ran, spec⟩ := @stores_run _ size _ (fun s member => by
    obtain ⟨positive, small, painted⟩ := only s member
    obtain ⟨-, i, isI, j, isJ, index, -⟩ := painted s.shift le_rfl (by omega)
    have below := fb.unitOf_lt made (by omega : px + i < fb.width) (by omega : py + j < fb.height)
    exact ⟨by omega, by omega, small, fun bit least most => (painted bit least most).1⟩) buf
  refine ⟨after, ran, fun i j inside => ?_, fun unit bit others => ?_⟩
  · obtain ⟨atLeastX, isI, atLeastY, isJ⟩ := inside
    lift i to Nat using atLeastX
    lift j to Nat using atLeastY
    have isI : i < fb.width := by exact_mod_cast isI
    have isJ : j < fb.height := by exact_mod_cast isJ
    constructor
    · intro visible
      obtain ⟨leastX, mostX, leastY, mostY⟩ := (isVisible i j).mp visible
      rw [fb.getpixel_of_fits made isI isJ (fits _ _ visible) large,
        look_ext (bits_lt _ _) fun bit isBit => ?_]
      have slot : (fb.slotOf i j * fb.format.depth + bit) / fb.format.depth = fb.slotOf i j := by
        rw [Nat.add_comm, Nat.add_mul_div_right _ _ (depth_pos _), Nat.div_eq_of_lt isBit,
          Nat.zero_add]
      have covered := all (i - px) (by omega) (j - py) (by omega)
        (fb.slotOf i j * fb.format.depth + bit)
      rw [show px + (i - px) = i by omega, show py + (j - py) = j by omega] at covered
      rw [(spec _ _).1 (covered slot), Nat.mul_add_mod', Nat.mod_eq_of_lt isBit]
    · intro hidden
      by_cases isFit : fb.Fits i j
      · rw [fb.getpixel_of_fits made isI isJ isFit large, fb.getpixel_of_fits made isI isJ isFit large,
          look_ext (look_lt _ _ _) fun bit isBit => ?_]
        rw [testBit_look, decide_eq_true isBit, Bool.true_and]
        refine (spec _ _).2 fun s member index least most => hidden ?_
        obtain ⟨-, i', isI', j', isJ', index', slot⟩ := (only s member).2.2 _ least most
        rw [Nat.add_comm, Nat.add_mul_div_right _ _ (depth_pos _), Nat.div_eq_of_lt isBit,
          Nat.zero_add] at slot
        obtain ⟨rfl, rfl⟩ := fb.cell_injective made isI (by omega)
          (Int.ofNat_inj.mp (index.symm.trans index')) slot
        exact (isVisible _ _).mpr (by omega)
      · have negative := fb.place_of_not_fits made isI isJ isFit
        rw [getpixel, getpixel, if_neg (by omega), if_neg (by omega)]
  · refine (spec unit bit).2 fun s member index least most => ?_
    obtain ⟨-, i, isI, j, isJ, index', slot⟩ := (only s member).2.2 _ least most
    have visible : Visible fb x y w h (px + i : Nat) (py + j : Nat) :=
      (isVisible _ _).mpr (by omega)
    refine others _ _ visible ?_
    rw [FrameBuffer.HasBit, fb.place_of_fits made (by omega) (by omega) (fits _ _ visible), ← slot]
    exact ⟨index'.symm.trans index, Nat.div_mul_le_self _ _, Nat.lt_div_mul_add (depth_pos _)⟩

variable {x y w h col : Int}

theorem fits_of_fills {run : Nat → (Nat → Nat) → Option (Nat → Nat)}
    (fills : Fills fb x y w h col run) {px py : Int} (visible : Visible fb x y w h px py) :
    fb.Fits px py := by
  obtain ⟨after, -, pixels, -⟩ := fills fb.units (fun _ => 0) le_rfl
  exact fits_of_getpixel made visible.1 ((pixels px py visible.1).1 visible)

omit made in
theorem int_sum {a b : Int} (aInt : IsInt a) (bInt : IsInt b) :
    int (a + b) = a + b ∧ a + b < 2 ^ 31 ∨ int (a + b) < 0 ∧ 2 ^ 31 ≤ a + b ∨ a + b < -2 ^ 31 := by
  obtain ⟨leastA, mostA⟩ := aInt
  obtain ⟨leastB, mostB⟩ := bInt
  by_cases large : 2 ^ 31 ≤ a + b
  · obtain ⟨sum, isSum⟩ := Int.eq_ofNat_of_zero_le (by omega : 0 ≤ a + b)
    rw [isSum]
    exact Or.inr (Or.inl ⟨int_neg (by omega) (by omega), by omega⟩)
  · by_cases least : -2 ^ 31 ≤ a + b
    · exact Or.inl ⟨int_eq least (by omega), by omega⟩
    · exact Or.inr (Or.inr (by omega))

theorem framebufFillRect_iff (xInt : IsInt x) (yInt : IsInt y) (wInt : IsInt w) (hInt : IsInt h) :
    Fills fb x y w h col (fun size buf => framebufFillRect fb size buf x y w h col) ↔
      RectFits fb x y w h := by
  have sumX := int_sum xInt wInt
  have sumY := int_sum yInt hInt
  obtain ⟨⟨leastX, -⟩, leastY, -⟩ := And.intro xInt yInt
  constructor
  · intro fills px py visible
    have fits := fits_of_fills made fills visible
    suffices sums : x + w < 2 ^ 31 ∧ y + h < 2 ^ 31 from ⟨sums.1, sums.2, fits⟩
    have range := visible.2
    by_contra not
    have wraps : int (x + w) ≤ 0 ∨ int (y + h) ≤ 0 := by omega
    obtain ⟨other, different⟩ : ∃ other, fb.format.bits other ≠ fb.format.bits (col % 2 ^ 32).toNat := by
      by_cases isZero : fb.format.bits (col % 2 ^ 32).toNat = 0
      · exact ⟨1, by rw [isZero]; cases fb.format <;> decide⟩
      · exact ⟨0, by cases is : fb.format <;> rw [is] at isZero <;> exact Ne.symm isZero⟩
    -- nothing is done, whatever the pixel is
    obtain ⟨buf, -, shows⟩ := setpixel_spec made le_rfl visible.1 fits (fun _ => 0) other
    obtain ⟨after, ran, pixels, -⟩ := fills fb.units buf le_rfl
    obtain rfl : buf = after := Option.some.inj ((if_pos (by omega)).symm.trans ran)
    have isOther := shows px py visible.1
    rw [if_pos ⟨rfl, rfl⟩, (pixels px py visible.1).1 visible] at isOther
    exact different (Option.some.inj isOther).symm
  · intro rect
    by_cases outside : h < 1 ∨ w < 1 ∨ int (x + w) ≤ 0 ∨ int (y + h) ≤ 0 ∨ fb.height ≤ y ∨ fb.width ≤ x
    · have hidden : ∀ px py, ¬Visible fb x y w h px py := by
        intro px py visible
        obtain ⟨belowX, belowY, -⟩ := rect px py visible
        obtain ⟨⟨atLeastX, isX, atLeastY, isY⟩, leftX, rightX, leftY, rightY⟩ := visible
        omega
      intro size buf _
      exact ⟨buf, if_pos outside, fun px py _ => ⟨fun visible => absurd visible (hidden px py),
        fun _ => rfl⟩, fun _ _ _ => rfl⟩
    · have sums : int (x + w) = x + w ∧ int (y + h) = y + h := by omega
      rw [sums.1, sums.2] at outside
      obtain ⟨px, isX⟩ := Int.eq_ofNat_of_zero_le (le_max_right x 0)
      obtain ⟨py, isY⟩ := Int.eq_ofNat_of_zero_le (le_max_right y 0)
      simp only [framebufFillRect, sums, if_neg outside, isX, isY]
      refine formatFillRect_fills made ?_ ?_ (fun i j => ?_) fun i j visible =>
        (rect i j visible).2.2
      · omega
      · omega
      · rw [Visible, FrameBuffer.Inside]
        omega

theorem framebufFill_iff : Fills fb 0 0 fb.width fb.height col (fun size buf =>
    framebufFill fb size buf col) ↔ RectFits fb 0 0 fb.width fb.height := by
  obtain ⟨width, height, -⟩ := made.small
  constructor
  · intro fills px py visible
    exact ⟨by omega, by omega, fits_of_fills made fills visible⟩
  · intro rect
    refine @formatFillRect_fills _ made _ _ _ _ _ 0 0 _ _ (by omega) (by omega) (fun i j => ?_)
      fun i j visible => (rect i j visible).2.2
    rw [Visible, FrameBuffer.Inside]
    omega

end Rectangles

theorem fills_iff {fb : FrameBuffer} (made : fb.Made) {x y w h : Int} (xInt : IsInt x) (yInt : IsInt y)
    (wInt : IsInt w) (hInt : IsInt h) (col : Int) :
    Fills fb x y w h col (fun size buf => framebufFillRect fb size buf x y w h col) ∧
      Fills fb x y w 1 col (fun size buf => framebufHline fb size buf x y w col) ∧
      Fills fb x y 1 h col (fun size buf => framebufVline fb size buf x y h col) ∧
      Fills fb 0 0 fb.width fb.height col (fun size buf => framebufFill fb size buf col) ↔
    RectFits fb x y w h ∧ RectFits fb x y w 1 ∧ RectFits fb x y 1 h ∧
      RectFits fb 0 0 fb.width fb.height :=
  have one : IsInt 1 := ⟨by decide, by decide⟩
  and_congr (framebufFillRect_iff made xInt yInt wInt hInt) <|
    and_congr (framebufFillRect_iff made xInt yInt wInt one) <|
      and_congr (framebufFillRect_iff made xInt yInt one hInt) (framebufFill_iff made)

theorem fills_iff_corner : Fills smallFrame (-1) 1 3 4 7 fun size buf =>
    framebufFillRect smallFrame size buf (-1) 1 3 4 7 := by
  have isInt : ∀ value ∈ [-1, 1, 3, 4], IsInt value := by unfold IsInt; decide
  have rect : ∀ x w y h : Int, x + w ≤ 5 → y + h ≤ 5 → RectFits smallFrame x y w h := by
    rintro x w y h right bottom px py ⟨⟨-, belowX, -, belowY⟩, -⟩
    have width : smallFrame.width = 3 ∧ smallFrame.height = 3 ∧ smallFrame.stride = 3 := by decide
    rw [FrameBuffer.Fits, width.2.2]
    omega
  exact ((fills_iff smallFrame_made (isInt _ (by decide)) (isInt _ (by decide)) (isInt _ (by decide))
    (isInt _ (by decide)) 7).mpr ⟨rect _ _ _ _ (by decide) (by decide),
      rect _ _ _ _ (by decide) (by decide), rect _ _ _ _ (by decide) (by decide),
      rect _ _ _ _ (by decide) (by decide)⟩).1

/-- The right end of the rectangle wraps around, and no pixel is changed. -/
theorem fill_rect_wraps : ¬Fills smallFrame 1 1 (2 ^ 31 - 1) 1 7 fun size buf =>
    framebufFillRect smallFrame size buf 1 1 (2 ^ 31 - 1) 1 7 := by
  intro fills
  have one : IsInt 1 := ⟨by decide, by decide⟩
  have rect := (framebufFillRect_iff smallFrame_made one one ⟨by decide, by decide⟩ one).mp fills 1 1
    ⟨by decide, by decide⟩
  exact absurd rect.1 (by decide)

end MultiPython.Framebuf
