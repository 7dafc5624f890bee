import MultiPython.Framebuf.Pixels
import MultiPython.Logic.Moves

/-!
# Scrolling and blitting

`framebuf_scroll` and `framebuf_blit` of `extmod/modframebuf.c`. The loops of `framebuf_scroll` end
when their variable is equal to an end that is computed from the step, so a step beyond the frame
starts them behind their end. An `int` that overflows wraps around.
-/

namespace MultiPython.Framebuf

open Logic

section Model

/-- A `for` loop that ends on `!=`: the values of its variable, or `none` after so many rounds. -/
def forLoop (stop step : Int) : Nat → Int → Option (List Int)
  | 0, _ => none
  | rounds + 1, i =>
    if i = stop then some [] else (forLoop stop step rounds (int (i + step))).map (i :: ·)

/-- Where `framebuf_scroll` starts in a direction, where it ends, and which way it goes. -/
structure Axis where
  start : Int
  stop : Int
  delta : Int

/-- The axis for a step: `sx`, `xend` and `dx`, or `y`, `yend` and `dy`. -/
def scrollAxis (length : Nat) (step : Int) : Axis :=
  if step < 0 then ⟨0, int (length + step), 1⟩ else ⟨length - 1, int (step - 1), -1⟩

/-- The pixels that `framebuf_scroll` writes, in order. An `int` has `2 ^ 32` values, so that no loop
has more rounds. -/
def scrollPixels (fb : FrameBuffer) (xstep ystep : Int) : Option (List (Int × Int)) := do
  let xs := scrollAxis fb.width xstep
  let ys := scrollAxis fb.height ystep
  let rows ← forLoop ys.stop ys.delta (2 ^ 32) ys.start
  let row ← forLoop xs.stop xs.delta (2 ^ 32) xs.start
  some (rows.flatMap fun y => row.map fun x => (x, y))

/-- The pixel that `framebuf_scroll` copies to this one. -/
def scrollSource (xstep ystep : Int) (p : Int × Int) : Int × Int :=
  (int (p.1 - xstep), int (p.2 - ystep))

def framebufScroll (fb : FrameBuffer) (size : Nat) (buf : Nat → Nat) (xstep ystep : Int) :
    Option (Nat → Nat) := do
  let pixels ← scrollPixels fb xstep ystep
  (pixels.map fun p => (p, scrollSource xstep ystep p)).foldlM
    (move (fun buf q => getpixel fb size buf q.1 q.2)
      (fun buf p col => setpixel fb size buf p.1 p.2 col)) buf

/-- The pixels of `framebuf_blit`, each with the pixel of the source that it gets. -/
def blitPixels (fb source : FrameBuffer) (x y : Int) : List ((Int × Int) × (Int × Int)) :=
  let x0 := max 0 x
  let y0 := max 0 y
  let x1 := max 0 (int (-x))
  let y1 := max 0 (int (-y))
  let x0end := min (fb.width : Int) (int (x + source.width))
  let y0end := min (fb.height : Int) (int (y + source.height))
  (List.range (y0end - y0).toNat).flatMap fun (j : Nat) =>
    (List.range (x0end - x0).toNat).map fun (i : Nat) => ((x0 + i, y0 + j), (x1 + i, y1 + j))

/-- `framebuf_blit`, from a frame buffer with a buffer of its own; without a key it is `-1`. -/
def framebufBlit (fb : FrameBuffer) (size : Nat) (buf : Nat → Nat) (source : FrameBuffer)
    (sourceSize : Nat) (sourceBuf : Nat → Nat) (x y key : Int) : Option (Nat → Nat) :=
  if fb.width ≤ x ∨ fb.height ≤ y ∨ source.width ≤ int (-x) ∨ source.height ≤ int (-y) then some buf
  else (blitPixels fb source x y).foldlM
    (move (fun _ q => getpixel source sourceSize sourceBuf q.1 q.2)
      (fun buf p col => if (col : Int) = key % 2 ^ 32 then some buf
        else setpixel fb size buf p.1 p.2 col)) buf

/-- `framebuf_scroll` ends, stays in the frame, and moves the old pixels. -/
def Scrolls (fb : FrameBuffer) (xstep ystep : Int) : Prop :=
  ∃ pixels, scrollPixels fb xstep ystep = some pixels ∧
    (∀ p ∈ pixels, fb.Inside p.1 p.2 ∧
      fb.Inside (scrollSource xstep ystep p).1 (scrollSource xstep ystep p).2) ∧
    ∀ size buf, fb.units ≤ size → ∃ after,
      framebufScroll fb size buf xstep ystep = some after ∧
      ∀ x y, fb.Inside x y → getpixel fb size after x y =
        if fb.Inside (x - xstep) (y - ystep) then getpixel fb size buf (x - xstep) (y - ystep)
        else getpixel fb size buf x y

/-- `framebuf_blit` copies the pixels of the source that are in the frame and do not have the key. -/
def Blits (fb source : FrameBuffer) (x y key : Int) : Prop :=
  ∀ size buf sourceSize sourceBuf, fb.units ≤ size → source.units ≤ sourceSize → ∃ after,
    framebufBlit fb size buf source sourceSize sourceBuf x y key = some after ∧
    ∀ px py, fb.Inside px py →
      (source.Inside (px - x) (py - y) →
        ∃ col, getpixel source sourceSize sourceBuf (px - x) (py - y) = some col ∧
          getpixel fb size after px py = if (col : Int) = key % 2 ^ 32 then getpixel fb size buf px py
            else some (fb.format.bits col)) ∧
      (¬source.Inside (px - x) (py - y) → getpixel fb size after px py = getpixel fb size buf px py)

/-- A value that an argument can have: `mp_obj_get_int` does not return the least `int`. -/
def IsArgument (value : Int) : Prop := -2 ^ 31 < value ∧ value < 2 ^ 31

/-- A step that the loops can end with. -/
def StepsFit (fb : FrameBuffer) (xstep ystep : Int) : Prop :=
  (|xstep| ≤ fb.width ∧ |ystep| ≤ fb.height) ∨ |xstep| = fb.width ∨ |ystep| = fb.height

/-- The pixels that are moved have numbers that are an `int`. -/
def NumbersFit (fb source : FrameBuffer) (x y : Int) : Prop :=
  ∀ px py, fb.Inside px py → source.Inside (px - x) (py - y) →
    fb.Fits px py ∧ source.Fits (px - x) (py - y)

end Model

/-! ## Loops -/

theorem int_eq {value : Int} (atLeast : -2 ^ 31 ≤ value) (below : value < 2 ^ 31) :
    int value = value := by
  apply Int.bmod_eq_of_le_mul_two <;> omega

/-- The order in which the loops visit coordinates. -/
def Before (step a b : Int) : Prop := if step < 0 then a < b else b < a

theorem forLoop_between {start stop delta : Int} {rounds fuel : Nat} (unit : delta = 1 ∨ delta = -1)
    (isStop : stop = start + rounds * delta) (enough : rounds < fuel)
    (atLeast : -2 ^ 31 ≤ start ∧ -2 ^ 31 ≤ stop) (below : start < 2 ^ 31 ∧ stop < 2 ^ 31) :
    ∃ visits, forLoop stop delta fuel start = some visits ∧
      (∀ v, v ∈ visits ↔ 0 ≤ (v - start) * delta ∧ (v - start) * delta < rounds) ∧
      visits.Pairwise fun a b => 0 < (b - a) * delta := by
  induction rounds generalizing start fuel with
  | zero =>
    obtain ⟨fuel, rfl⟩ : ∃ more, fuel = more + 1 := ⟨fuel - 1, by omega⟩
    refine ⟨[], ?_, fun v => ?_, List.Pairwise.nil⟩
    · rw [forLoop, if_pos (by omega)]
    · simp only [List.not_mem_nil, false_iff]
      omega
  | succ rounds ih =>
    obtain ⟨fuel, rfl⟩ : ∃ more, fuel = more + 1 := ⟨fuel - 1, by omega⟩
    have next : int (start + delta) = start + delta := by
      rcases unit with rfl | rfl <;> exact int_eq (by omega) (by omega)
    have moved : stop = start + delta + rounds * delta := by
      rw [isStop]
      push_cast
      ring
    obtain ⟨visits, runs, members, sorted⟩ := ih moved
      (by omega : rounds < fuel) ⟨by rcases unit with rfl | rfl <;> omega, atLeast.2⟩
      ⟨by rcases unit with rfl | rfl <;> omega, below.2⟩
    refine ⟨start :: visits, ?_, fun v => ?_, List.pairwise_cons.mpr ⟨fun v member => ?_, sorted⟩⟩
    · rw [forLoop, if_neg (by rcases unit with rfl | rfl <;> omega), next, runs, Option.map_some]
    · rw [List.mem_cons, members]
      rcases unit with rfl | rfl <;> omega
    · have after := (members v).mp member
      rcases unit with rfl | rfl <;> omega

theorem forLoop_ends {start stop delta : Int} {rounds fuel : Nat} (unit : delta = 1 ∨ delta = -1)
    (distance : ((stop - start) * delta) % 2 ^ 32 = rounds) (enough : rounds < fuel)
    (atLeast : -2 ^ 31 ≤ start ∧ -2 ^ 31 ≤ stop) (below : start < 2 ^ 31 ∧ stop < 2 ^ 31) :
    ∃ visits, forLoop stop delta fuel start = some visits := by
  induction rounds generalizing start fuel with
  | zero =>
    obtain ⟨fuel, rfl⟩ : ∃ more, fuel = more + 1 := ⟨fuel - 1, by omega⟩
    exact ⟨[], by rw [forLoop, if_pos (by rcases unit with rfl | rfl <;> omega)]⟩
  | succ rounds ih =>
    obtain ⟨fuel, rfl⟩ : ∃ more, fuel = more + 1 := ⟨fuel - 1, by omega⟩
    have range : -2 ^ 31 ≤ int (start + delta) ∧ int (start + delta) < 2 ^ 31 ∧
        (int (start + delta) - (start + delta)) % 2 ^ 32 = 0 := by
      rw [int, Int.bmod]
      omega
    obtain ⟨visits, runs⟩ := ih (by rcases unit with rfl | rfl <;> omega)
      (by omega : rounds < fuel) ⟨range.1, atLeast.2⟩ ⟨range.2.1, below.2⟩
    refine ⟨start :: visits, ?_⟩
    rw [forLoop, if_neg (by rcases unit with rfl | rfl <;> omega), runs, Option.map_some]

theorem scrollAxis_inside {length : Nat} {step : Int} (small : length < 2 ^ 16)
    (fits : |step| ≤ length) :
    ∃ visits, forLoop (scrollAxis length step).stop (scrollAxis length step).delta (2 ^ 32)
        (scrollAxis length step).start = some visits ∧
      (∀ v, v ∈ visits ↔ (0 ≤ v ∧ v < length) ∧ 0 ≤ v - step ∧ v - step < length) ∧
      visits.Pairwise (Before step) := by
  obtain ⟨least, most⟩ := abs_le.mp fits
  rw [scrollAxis]
  split_ifs with negative
  · obtain ⟨visits, runs, members, sorted⟩ := @forLoop_between 0 (int (length + step)) 1
      (length + step).toNat (2 ^ 32) (Or.inl rfl) (by rw [int_eq] <;> omega) (by omega)
      (by rw [int_eq] <;> omega) (by rw [int_eq] <;> omega)
    refine ⟨visits, runs, fun v => (members v).trans (by omega), sorted.imp fun order => ?_⟩
    rw [Before, if_pos negative]
    omega
  · obtain ⟨visits, runs, members, sorted⟩ := @forLoop_between (length - 1) (int (step - 1)) (-1)
      (length - step).toNat (2 ^ 32) (Or.inr rfl) (by rw [int_eq] <;> omega) (by omega)
      (by rw [int_eq] <;> omega) (by rw [int_eq] <;> omega)
    refine ⟨visits, runs, fun v => (members v).trans (by omega), sorted.imp fun order => ?_⟩
    rw [Before, if_neg negative]
    omega

theorem scrollAxis_start {length : Nat} {step : Int} (small : length < 2 ^ 16)
    (isArgument : IsArgument step) (other : |step| ≠ length) {rounds : Nat} {visits : List Int}
    (runs : forLoop (scrollAxis length step).stop (scrollAxis length step).delta rounds
      (scrollAxis length step).start = some visits) :
    (scrollAxis length step).start ∈ visits := by
  obtain ⟨least, most⟩ := isArgument
  have apart : (scrollAxis length step).start ≠ (scrollAxis length step).stop := by
    rw [scrollAxis]
    split_ifs with negative
    · rw [abs_of_neg negative] at other
      rw [int_eq (by omega) (by omega)]
      simp only [ne_eq]
      omega
    · rw [abs_of_nonneg (by omega)] at other
      rw [int_eq (by omega) (by omega)]
      simp only [ne_eq]
      omega
  cases rounds with
  | zero => cases runs
  | succ rounds =>
    rw [forLoop, if_neg apart] at runs
    obtain ⟨later, -, rfl⟩ := Option.map_eq_some_iff.mp runs
    exact List.mem_cons_self

theorem scrollAxis_outside {length : Nat} {step : Int} (small : length < 2 ^ 16)
    (isArgument : IsArgument step) (beyond : (length : Int) < |step|) :
    ¬(0 ≤ int ((scrollAxis length step).start - step) ∧
      int ((scrollAxis length step).start - step) < length) := by
  obtain ⟨least, most⟩ := isArgument
  rw [scrollAxis]
  split_ifs with negative
  · rw [abs_of_neg negative] at beyond
    rw [int_eq (by simp only; omega) (by simp only; omega)]
    simp only
    omega
  · rw [abs_of_nonneg (by omega)] at beyond
    rw [int_eq (by simp only; omega) (by simp only; omega)]
    simp only
    omega

section Scroll

variable {fb : FrameBuffer} (made : fb.Made) {xstep ystep : Int}

include made

theorem setpixel_cell {size : Nat} (large : fb.units ≤ size) {p : Int × Int}
    (inside : fb.Inside p.1 p.2) (fits : fb.Fits p.1 p.2) (buf : Nat → Nat) (col : Nat) :
    ∃ next, setpixel fb size buf p.1 p.2 col = some next ∧
      ∀ cell : Int × Int, fb.Inside cell.1 cell.2 → getpixel fb size next cell.1 cell.2 =
        if cell = p then some (fb.format.bits col) else getpixel fb size buf cell.1 cell.2 := by
  obtain ⟨next, written, spec⟩ := setpixel_spec made large inside fits buf col
  refine ⟨next, written, fun cell isInside => ?_⟩
  simp only [spec cell.1 cell.2 isInside, Prod.ext_iff]

theorem scrollSource_inside {p : Int × Int} (inside : fb.Inside (p.1 - xstep) (p.2 - ystep)) :
    scrollSource xstep ystep p = (p.1 - xstep, p.2 - ystep) := by
  obtain ⟨width, height, -⟩ := made.small
  obtain ⟨atLeastX, belowX, atLeastY, belowY⟩ := inside
  rw [scrollSource, int_eq (by omega) (by omega), int_eq (by omega) (by omega)]

/-- Within the frame the loops visit the pixels that have a source, a source not after its pixel. -/
theorem scrollPixels_inside (xFits : |xstep| ≤ fb.width) (yFits : |ystep| ≤ fb.height) :
    ∃ pixels, scrollPixels fb xstep ystep = some pixels ∧
      (∀ p, p ∈ pixels ↔ fb.Inside p.1 p.2 ∧ fb.Inside (p.1 - xstep) (p.2 - ystep)) ∧
      pixels.Pairwise fun p q => Before ystep p.2 q.2 ∨ p.2 = q.2 ∧ Before xstep p.1 q.1 := by
  obtain ⟨row, runsX, inRow, sortedX⟩ := scrollAxis_inside made.small.1 xFits
  obtain ⟨rows, runsY, inRows, sortedY⟩ := scrollAxis_inside made.small.2.1 yFits
  refine ⟨rows.flatMap fun y => row.map fun x => (x, y), ?_, ?_, ?_⟩
  · simp only [scrollPixels, runsX, runsY, Option.bind_eq_bind, Option.bind_some]
  · rintro ⟨x, y⟩
    simp only [List.mem_flatMap, List.mem_map, Prod.mk.injEq, FrameBuffer.Inside]
    constructor
    · rintro ⟨y, isY, x, isX, rfl, rfl⟩
      obtain ⟨insideX, sourceX⟩ := (inRow x).mp isX
      obtain ⟨insideY, sourceY⟩ := (inRows y).mp isY
      exact ⟨⟨insideX.1, insideX.2, insideY⟩, sourceX.1, sourceX.2, sourceY⟩
    · rintro ⟨⟨atLeastX, belowX, insideY⟩, atLeastX', belowX', sourceY⟩
      exact ⟨y, (inRows y).mpr ⟨insideY, sourceY⟩, x,
        (inRow x).mpr ⟨⟨atLeastX, belowX⟩, atLeastX', belowX'⟩, rfl, rfl⟩
  · rw [List.pairwise_flatMap]
    constructor
    · intro y isY
      rw [List.pairwise_map]
      exact sortedX.imp fun order => Or.inr ⟨rfl, order⟩
    · refine sortedY.imp fun order p isP q isQ => Or.inl ?_
      obtain ⟨x, isX, rfl⟩ := List.mem_map.mp isP
      obtain ⟨x', isX', rfl⟩ := List.mem_map.mp isQ
      exact order

/-- A step of a whole frame leaves nothing to be visited. -/
theorem scrollPixels_nil (xArg : IsArgument xstep) (yArg : IsArgument ystep)
    (whole : |xstep| = fb.width ∨ |ystep| = fb.height) : scrollPixels fb xstep ystep = some [] := by
  have ends : ∀ {length : Nat} {step : Int}, length < 2 ^ 16 → IsArgument step →
      ∃ visits, forLoop (scrollAxis length step).stop (scrollAxis length step).delta (2 ^ 32)
        (scrollAxis length step).start = some visits ∧ (|step| = length → visits = []) := by
    intro length step small isArgument
    obtain ⟨least, most⟩ := isArgument
    by_cases isWhole : |step| = length
    · obtain ⟨visits, runs, members, -⟩ := scrollAxis_inside small isWhole.le
      refine ⟨visits, runs, fun _ => List.eq_nil_iff_forall_not_mem.mpr fun v member => ?_⟩
      have inside := (members v).mp member
      rcases abs_choice step with same | same <;> omega
    · have range : ∀ value, -2 ^ 31 ≤ int value ∧ int value < 2 ^ 31 := by
        intro value
        rw [int, Int.bmod]
        omega
      have stop := range (length + step)
      have stop' := range (step - 1)
      obtain ⟨visits, runs⟩ := @forLoop_ends (scrollAxis length step).start
        (scrollAxis length step).stop (scrollAxis length step).delta _ (2 ^ 32)
        (by rw [scrollAxis]; split_ifs <;> simp)
        (Int.toNat_of_nonneg (Int.emod_nonneg _ (by decide))).symm
        (by have := Int.emod_lt_of_pos (((scrollAxis length step).stop -
              (scrollAxis length step).start) * (scrollAxis length step).delta)
              (by decide : (0 : Int) < 2 ^ 32)
            omega)
        (by rw [scrollAxis]; split_ifs <;> simp only <;> omega)
        (by rw [scrollAxis]; split_ifs <;> simp only <;> omega)
      exact ⟨visits, runs, fun same => absurd same isWhole⟩
  obtain ⟨rows, runsY, noRows⟩ := ends made.small.2.1 yArg
  obtain ⟨row, runsX, noRow⟩ := ends made.small.1 xArg
  simp only [scrollPixels, runsX, runsY, Option.bind_eq_bind, Option.bind_some]
  rcases whole with isWhole | isWhole
  · simp [noRow isWhole]
  · simp [noRows isWhole]

/-- Within the frame every pixel is read before it is overwritten. -/
theorem scrolls_inside (xFits : |xstep| ≤ fb.width) (yFits : |ystep| ≤ fb.height)
    (numbers : NumbersFit fb fb xstep ystep) : Scrolls fb xstep ystep := by
  obtain ⟨pixels, runs, members, sorted⟩ := scrollPixels_inside made xFits yFits
  have source : ∀ p ∈ pixels, scrollSource xstep ystep p = (p.1 - xstep, p.2 - ystep) :=
    fun p member => scrollSource_inside made ((members p).mp member).2
  refine ⟨pixels, runs, fun p member => ?_, fun size buf large => ?_⟩
  · rw [source p member]
    exact (members p).mp member
  have writes : ∀ p ∈ pixels, ∀ buf col, ∃ next, setpixel fb size buf p.1 p.2 col = some next ∧
      ∀ cell : Int × Int, fb.Inside cell.1 cell.2 → getpixel fb size next cell.1 cell.2 =
        if cell = p then some (fb.format.bits col) else getpixel fb size buf cell.1 cell.2 := by
    intro p member
    obtain ⟨inside, sourceInside⟩ := (members p).mp member
    exact setpixel_cell made large inside (numbers p.1 p.2 inside sourceInside).1
  have reads : ∀ p ∈ pixels, ∀ buf, ∃ col < 2 ^ fb.format.depth,
      getpixel fb size buf (p.1 - xstep) (p.2 - ystep) = some col := by
    intro p member buf
    obtain ⟨inside, sourceInside⟩ := (members p).mp member
    exact getpixel_inside made sourceInside large (numbers p.1 p.2 inside sourceInside).2 buf
  obtain ⟨after, ran, spec⟩ := @moves_spec _ _ _ _ _
    (fun buf (q : Int × Int) => getpixel fb size buf q.1 q.2)
    (fun buf (p : Int × Int) col => setpixel fb size buf p.1 p.2 col) _
    (fun buf cell => getpixel fb size buf cell.1 cell.2) (fun col _ => some (fb.format.bits col))
    (fun cell => fb.Inside cell.1 cell.2) (pixels.map fun p => (p, scrollSource xstep ystep p))
    (fun pair member s v => by
      obtain ⟨p, isPixel, rfl⟩ := List.mem_map.mp member
      exact writes p isPixel s v)
    (by
      rw [List.pairwise_map]
      refine sorted.imp_of_mem fun {p q} isP isQ order => ?_
      have apart : p ≠ q ∧ (q.1 - xstep, q.2 - ystep) ≠ p := by
        constructor
        · rintro rfl
          unfold Before at order
          split_ifs at order <;> omega
        · rintro rfl
          unfold Before at order
          simp only at order
          split_ifs at order <;> omega
      refine ⟨apart.1, fun s v next written => ?_⟩
      obtain ⟨other, isOther, spec⟩ := writes p isP s v
      obtain rfl := Option.some.inj (isOther.symm.trans written)
      rw [source q isQ]
      exact (spec _ ((members q).mp isQ).2).trans (if_neg apart.2))
    buf
    (fun pair member => by
      obtain ⟨p, isPixel, rfl⟩ := List.mem_map.mp member
      obtain ⟨col, -, isCol⟩ := reads p isPixel buf
      exact ⟨col, by rw [source p isPixel]; exact isCol⟩)
  refine ⟨after, by simp only [framebufScroll, runs, Option.bind_eq_bind, Option.bind_some, ran],
    fun x y inside => ?_⟩
  obtain ⟨moved, unmoved⟩ := spec (x, y) inside
  split_ifs with sourceInside
  · have member := (members (x, y)).mpr ⟨inside, sourceInside⟩
    obtain ⟨col, small, isCol⟩ := reads _ member buf
    rw [moved _ (List.mem_map_of_mem member) rfl col (by rw [source _ member]; exact isCol), isCol,
      bits_of_lt _ small]
  · refine unmoved fun pair member isCell => sourceInside ?_
    obtain ⟨p, isPixel, rfl⟩ := List.mem_map.mp member
    obtain rfl : p = (x, y) := isCell
    exact ((members _).mp isPixel).2

/-- `framebuf_scroll` does what it is for exactly if the loops can end. -/
theorem scrolls_iff (xArg : IsArgument xstep) (yArg : IsArgument ystep) :
    Scrolls fb xstep ystep ↔ StepsFit fb xstep ystep ∧ NumbersFit fb fb xstep ystep := by
  constructor
  · rintro ⟨pixels, runs, inside, moves⟩
    have steps : StepsFit fb xstep ystep := by
      by_contra not
      rw [StepsFit, not_or, not_or] at not
      obtain ⟨beyond, notX, notY⟩ := not
      simp only [scrollPixels, Option.bind_eq_bind, Option.bind_eq_some_iff] at runs
      obtain ⟨rows, runsY, row, runsX, isPixels⟩ := runs
      have start := inside ((scrollAxis fb.width xstep).start, (scrollAxis fb.height ystep).start) (by
        rw [← Option.some.inj isPixels, List.mem_flatMap]
        exact ⟨_, scrollAxis_start made.small.2.1 yArg notY runsY,
          List.mem_map_of_mem (scrollAxis_start made.small.1 xArg notX runsX)⟩)
      obtain ⟨-, atLeastX, belowX, insideY⟩ := start
      rw [not_and_or, not_le, not_le] at beyond
      rcases beyond with beyondX | beyondY
      · exact scrollAxis_outside made.small.1 xArg beyondX ⟨atLeastX, belowX⟩
      · exact scrollAxis_outside made.small.2.1 yArg beyondY insideY
    refine ⟨steps, fun x y isInside sourceInside => ?_⟩
    obtain ⟨xFits, yFits⟩ : |xstep| ≤ fb.width ∧ |ystep| ≤ fb.height := by
      obtain ⟨atLeastX, belowX, atLeastY, belowY⟩ := isInside
      obtain ⟨atLeastX', belowX', atLeastY', belowY'⟩ := sourceInside
      exact ⟨abs_le.mpr (by omega), abs_le.mpr (by omega)⟩
    obtain ⟨others, runs', members, -⟩ := scrollPixels_inside made xFits yFits
    obtain rfl := Option.some.inj (runs.symm.trans runs')
    obtain ⟨after, ran, -⟩ := moves fb.units (fun _ => 0) le_rfl
    simp only [framebufScroll, runs, Option.bind_eq_bind, Option.bind_some] at ran
    obtain ⟨t, col, next, isRead, isWritten⟩ := move_of_mem ran
      (List.mem_map_of_mem ((members (x, y)).mpr ⟨isInside, sourceInside⟩))
    rw [scrollSource_inside made sourceInside] at isRead
    exact ⟨fits_of_setpixel made isInside isWritten, fits_of_getpixel made sourceInside isRead⟩
  · rintro ⟨steps, numbers⟩
    rcases steps with ⟨xFits, yFits⟩ | whole
    · exact scrolls_inside made xFits yFits numbers
    · have none_ := scrollPixels_nil made xArg yArg whole
      refine ⟨[], none_, fun p member => (by cases member), fun size buf _ => ⟨buf, ?_, ?_⟩⟩
      · simp only [framebufScroll, none_, Option.bind_eq_bind, Option.bind_some]
        rfl
      · intro x y isInside
        rw [if_neg]
        rintro ⟨atLeastX, belowX, atLeastY, belowY⟩
        obtain ⟨atLeastX', belowX', atLeastY', belowY'⟩ := isInside
        rcases whole with same | same
        · rcases abs_choice xstep with sign | sign <;> omega
        · rcases abs_choice ystep with sign | sign <;> omega

end Scroll

/-! ## Blitting -/

section Blit

variable {fb source : FrameBuffer} (made : fb.Made) (sourceMade : source.Made) {x y key : Int}
  (xArg : IsArgument x) (yArg : IsArgument y)

include made sourceMade xArg yArg

theorem mem_blitPixels (overlaps : ¬(fb.width ≤ x ∨ fb.height ≤ y ∨ source.width ≤ int (-x) ∨
      source.height ≤ int (-y))) (pair : (Int × Int) × (Int × Int)) :
    pair ∈ blitPixels fb source x y ↔ fb.Inside pair.1.1 pair.1.2 ∧
      source.Inside (pair.1.1 - x) (pair.1.2 - y) ∧ pair.2 = (pair.1.1 - x, pair.1.2 - y) := by
  obtain ⟨width, height, -⟩ := made.small
  obtain ⟨width', height', -⟩ := sourceMade.small
  obtain ⟨leastX, mostX⟩ := xArg
  obtain ⟨leastY, mostY⟩ := yArg
  rw [int_eq (by omega) (by omega), int_eq (by omega) (by omega)] at overlaps
  obtain ⟨⟨px, py⟩, qx, qy⟩ := pair
  rw [blitPixels, int_eq (by omega) (by omega), int_eq (by omega) (by omega),
    int_eq (by omega) (by omega), int_eq (by omega) (by omega)]
  simp only [List.mem_flatMap, List.mem_map, List.mem_range, Prod.mk.injEq, FrameBuffer.Inside]
  constructor
  · rintro ⟨j, isJ, i, isI, ⟨rfl, rfl⟩, rfl, rfl⟩
    omega
  · rintro ⟨inside, sourceInside, rfl, rfl⟩
    exact ⟨(py - max 0 y).toNat, by omega, (px - max 0 x).toNat, by omega, by omega, by omega⟩

omit made sourceMade in
/-- Without an overlap no pixel of the source is in the frame. -/
theorem outside_of_apart (apart : fb.width ≤ x ∨ fb.height ≤ y ∨ source.width ≤ int (-x) ∨
      source.height ≤ int (-y)) {px py : Int} (inside : fb.Inside px py) :
    ¬source.Inside (px - x) (py - y) := by
  obtain ⟨leastX, mostX⟩ := xArg
  obtain ⟨leastY, mostY⟩ := yArg
  rw [int_eq (by omega) (by omega), int_eq (by omega) (by omega)] at apart
  rintro ⟨atLeastX, belowX, atLeastY, belowY⟩
  obtain ⟨atLeastX', belowX', atLeastY', belowY'⟩ := inside
  omega

theorem blits_of_fits (numbers : NumbersFit fb source x y) : Blits fb source x y key := by
  intro size buf sourceSize sourceBuf large sourceLarge
  by_cases apart : fb.width ≤ x ∨ fb.height ≤ y ∨ source.width ≤ int (-x) ∨ source.height ≤ int (-y)
  · refine ⟨buf, if_pos apart, fun px py inside => ⟨fun sourceInside => ?_, fun _ => rfl⟩⟩
    exact absurd sourceInside (outside_of_apart xArg yArg apart inside)
  have members := mem_blitPixels made sourceMade xArg yArg apart
  have reads : ∀ pair ∈ blitPixels fb source x y, ∃ col,
      getpixel source sourceSize sourceBuf pair.2.1 pair.2.2 = some col := by
    intro pair member
    obtain ⟨inside, sourceInside, isSource⟩ := (members pair).mp member
    obtain ⟨col, -, isCol⟩ := getpixel_inside sourceMade sourceInside sourceLarge
      (numbers _ _ inside sourceInside).2 sourceBuf
    exact ⟨col, by rw [isSource]; exact isCol⟩
  obtain ⟨after, ran, spec⟩ := @moves_spec _ _ _ _ _
    (fun _ (q : Int × Int) => getpixel source sourceSize sourceBuf q.1 q.2)
    (fun buf (p : Int × Int) col => if (col : Int) = key % 2 ^ 32 then some buf
      else setpixel fb size buf p.1 p.2 col) _
    (fun buf cell => getpixel fb size buf cell.1 cell.2)
    (fun col old => if (col : Int) = key % 2 ^ 32 then old else some (fb.format.bits col))
    (fun cell => fb.Inside cell.1 cell.2) (blitPixels fb source x y)
    (fun pair member s v => by
      obtain ⟨inside, sourceInside, -⟩ := (members pair).mp member
      split_ifs with isKey
      · exact ⟨s, rfl, fun cell _ => by split_ifs <;> rfl⟩
      · exact setpixel_cell made large inside (numbers _ _ inside sourceInside).1 s v)
    (by
      rw [blitPixels, List.pairwise_flatMap]
      refine ⟨fun j _ => ?_, List.pairwise_lt_range.imp fun order first isFirst later isLater => ?_⟩
      · rw [List.pairwise_map]
        refine List.pairwise_lt_range.imp fun order => ⟨fun same => ?_, fun _ _ _ _ => rfl⟩
        have coordinate := congrArg Prod.fst same
        simp only at coordinate
        omega
      · obtain ⟨i, -, rfl⟩ := List.mem_map.mp isFirst
        obtain ⟨i', -, rfl⟩ := List.mem_map.mp isLater
        refine ⟨fun same => ?_, fun _ _ _ _ => rfl⟩
        have coordinate := congrArg Prod.snd same
        simp only at coordinate
        omega)
    buf reads
  refine ⟨after, (if_neg apart).trans ran, fun px py inside => ?_⟩
  obtain ⟨moved, unmoved⟩ := spec (px, py) inside
  constructor
  · intro sourceInside
    have member := (members ((px, py), (px - x, py - y))).mpr ⟨inside, sourceInside, rfl⟩
    obtain ⟨col, isCol⟩ := reads _ member
    exact ⟨col, isCol, moved _ member rfl col isCol⟩
  · intro outside
    refine unmoved fun pair member isCell => outside ?_
    obtain ⟨-, sourceInside, -⟩ := (members pair).mp member
    rwa [isCell] at sourceInside

/-- `framebuf_blit` copies what it should, if the numbers of the pixels are an `int`. -/
theorem blits_iff : Blits fb source x y key ↔ NumbersFit fb source x y := by
  constructor
  · intro blits px py inside sourceInside
    obtain ⟨_, -, visible⟩ := blits fb.units (fun _ => 0) source.units (fun _ => 0) le_rfl le_rfl
    obtain ⟨col, isRead, -⟩ := (visible px py inside).1 sourceInside
    have fits := fits_of_getpixel sourceMade sourceInside isRead
    refine ⟨?_, fits⟩
    -- a colour that is not the key is copied
    obtain ⟨other, notKey, isBits⟩ : ∃ other : Nat, (other : Int) ≠ key % 2 ^ 32 ∧
        source.format.bits other = other := by
      by_cases isZero : key % 2 ^ 32 = 0
      · exact ⟨1, by omega, by cases source.format <;> rfl⟩
      · exact ⟨0, by omega, by cases source.format <;> rfl⟩
    obtain ⟨sourceBuf, -, shows_⟩ :=
      setpixel_spec sourceMade le_rfl sourceInside fits (fun _ => 0) other
    have isOther := shows_ _ _ sourceInside
    rw [if_pos ⟨rfl, rfl⟩, isBits] at isOther
    obtain ⟨_, -, visible⟩ := blits fb.units (fun _ => 0) source.units sourceBuf le_rfl le_rfl
    obtain ⟨col', isRead', copied⟩ := (visible px py inside).1 sourceInside
    obtain rfl : col' = other := Option.some.inj (isRead'.symm.trans isOther)
    rw [if_neg notKey] at copied
    exact fits_of_getpixel made inside copied
  · exact blits_of_fits made sourceMade xArg yArg

end Blit

/-- A frame of nine bytes. -/
def smallFrame : FrameBuffer := framebufMakeNew 3 3 .gs8 none

theorem smallFrame_made : smallFrame.Made := framebufMakeNew_made 3 3 .gs8 none (by decide)

end MultiPython.Framebuf
