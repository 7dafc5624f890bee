import Mathlib

/-!
# The inputs of the Mach1 board

`mach1_gpio_input_isr` of `ports/esp32/modmach1.c`, over a sequence of interrupts. An interrupt
brings the time in microseconds and the level of every pin. A sample is taken when the hold-off
since the *previous* input state is over, which is not the state that the last sample left.
-/

namespace MultiPython.Esp32.Debounce

open List

/-- The fields of `m1_input_states_t`, in the order in which the handler samples them. -/
inductive Input where
  | brk | lts | rts | rev | sw1 | sw2 | sw3
deriving DecidableEq

def inputs : List Input := [.brk, .lts, .rts, .rev, .sw1, .sw2, .sw3]

/-- The constants `MACH1_COND_RISING_*`. -/
def Input.rising : Input → Nat
  | .brk => 0x1C1B
  | .lts => 0x1C1C
  | .rts => 0x1C1D
  | .rev => 0x1C1E
  | .sw1 => 0x1C11
  | .sw2 => 0x1C12
  | .sw3 => 0x1C13

/-- The constants `MACH1_COND_FALLING_*`. -/
def Input.falling : Input → Nat
  | .brk => 0x1C0B
  | .lts => 0x1C0C
  | .rts => 0x1C0D
  | .rev => 0x1C0E
  | .sw1 => 0x1C01
  | .sw2 => 0x1C02
  | .sw3 => 0x1C03

/-- The condition that is notified for an input that changed to a level. -/
def Input.condition (input : Input) (level : Bool) : Nat :=
  if level then input.rising else input.falling

/-- The level with which `m1_input_state_current` starts. -/
def Input.default : Input → Bool
  | .brk | .lts | .rts | .rev => false
  | .sw1 | .sw2 | .sw3 => true

/-- `m1_input_states_t`. -/
structure InputStates where
  level : Input → Bool
  timestamp : Int

/-- The two static states, the conditions passed to `multipython_notify`, and the times at which
the handler took a sample. -/
structure Mach1 where
  previous : InputStates
  current : InputStates
  notified : List Nat
  samples : List Int

/-- What a run of the handler reads from the timer and the pins. -/
structure Interrupt where
  time : Int
  level : Input → Bool

/-- The hold-off. -/
def holdOff : Int := 60 * 1000

/-- `m1_input_state_previous` is zeroed. -/
def Mach1.start : Mach1 := ⟨⟨fun _ => false, 0⟩, ⟨Input.default, 0⟩, [], []⟩

/-- The notifications of a sample. -/
def changes (previous current : Input → Bool) (inputs : List Input) : List Nat :=
  inputs.filterMap fun input =>
    if current input ≠ previous input then some (input.condition (current input)) else none

/-- `mach1_gpio_input_isr`. -/
def Mach1.isr (board : Mach1) (interrupt : Interrupt) : Mach1 :=
  if interrupt.time - board.previous.timestamp > holdOff then
    { previous := board.current
      current := ⟨interrupt.level, interrupt.time⟩
      notified := board.notified ++ changes board.current.level interrupt.level inputs
      samples := board.samples ++ [interrupt.time] }
  else board

def Mach1.run (board : Mach1) (interrupts : List Interrupt) : Mach1 :=
  interrupts.foldl Mach1.isr board

/-! ## Debouncing -/

/-- Two times are further apart than the hold-off. -/
def Apart (earlier later : Int) : Prop := later - earlier > holdOff

instance (earlier later : Int) : Decidable (Apart earlier later) :=
  inferInstanceAs (Decidable (_ > _))

/-- The notifications for an input. -/
def Mach1.notifiedOf (board : Mach1) (input : Input) : List Nat :=
  board.notified.filter fun condition =>
    condition = input.condition true ∨ condition = input.condition false

/-- Conditions of an input that take turns, from a level to a level. -/
def Alternates (input : Input) : Bool → List Nat → Bool → Prop
  | first, [], last => first = last
  | first, condition :: conditions, last =>
    condition = input.condition (!first) ∧ Alternates input (!first) conditions last

theorem Mach1.run_cons (board : Mach1) (interrupt : Interrupt) (interrupts : List Interrupt) :
    board.run (interrupt :: interrupts) = (board.isr interrupt).run interrupts :=
  rfl

/-! ## The notified conditions -/

theorem condition_injective : ∀ input ∈ inputs, ∀ other ∈ inputs, ∀ level high,
    input.condition level = other.condition high → input = other ∧ level = high := by
  decide

theorem mem_inputs (input : Input) : input ∈ inputs := by
  cases input <;> decide

theorem isOf_iff (input other : Input) (level : Bool) :
    (other.condition level = input.condition true ∨ other.condition level = input.condition false) ↔
      other = input := by
  constructor
  · rintro (same | same)
    · exact (condition_injective _ (mem_inputs other) _ (mem_inputs input) _ _ same).1
    · exact (condition_injective _ (mem_inputs other) _ (mem_inputs input) _ _ same).1
  · rintro rfl
    cases level
    · exact .inr rfl
    · exact .inl rfl

section Changes

variable (previous current : Input → Bool) (input : Input)

theorem changes_cons (first : Input) (rest : List Input) :
    changes previous current (first :: rest) =
      (if current first ≠ previous first then [first.condition (current first)] else []) ++
        changes previous current rest := by
  by_cases changed : current first ≠ previous first
  · simp [changes, changed]
  · simp [changes, changed]

variable {fields : List Input}

theorem filter_changes_of_notMem (absent : input ∉ fields) :
    (changes previous current fields).filter (fun condition =>
      condition = input.condition true ∨ condition = input.condition false) = [] := by
  rw [filter_eq_nil_iff]
  intro condition notified
  simp only [changes, mem_filterMap] at notified
  obtain ⟨other, field, notified⟩ := notified
  have ofOther : other.condition (current other) = condition := by
    split_ifs at notified
    exact Option.some.inj notified
  rw [← ofOther, decide_eq_true_iff, isOf_iff]
  rintro rfl
  exact absent field

theorem filter_changes (distinct : fields.Nodup) (field : input ∈ fields) :
    (changes previous current fields).filter (fun condition =>
        condition = input.condition true ∨ condition = input.condition false) =
      if current input ≠ previous input then [input.condition (current input)] else [] := by
  induction fields with
  | nil => cases field
  | cons first rest ih =>
    rw [changes_cons, filter_append]
    obtain ⟨notRest, distinct⟩ := nodup_cons.mp distinct
    by_cases same : first = input
    · subst same
      rw [filter_changes_of_notMem previous current first notRest, append_nil]
      by_cases changed : current first ≠ previous first
      · rw [if_pos changed, filter_singleton, decide_eq_true ((isOf_iff _ _ _).mpr rfl)]
        rfl
      · rw [if_neg changed]
        rfl
    · have inRest : input ∈ rest :=
        (mem_cons.mp field).resolve_left fun equal => same equal.symm
      rw [ih distinct inRest]
      by_cases changed : current first ≠ previous first
      · rw [if_pos changed, filter_singleton,
          decide_eq_false (mt (isOf_iff _ _ _).mp same)]
        rfl
      · rw [if_neg changed]
        rfl

end Changes

variable {input : Input}

theorem Alternates.append {first between last : Bool} {earlier later : List Nat}
    (before : Alternates input first earlier between) (after : Alternates input between later last) :
    Alternates input first (earlier ++ later) last := by
  induction earlier generalizing first with
  | nil =>
    cases before
    exact after
  | cons condition conditions ih =>
    exact ⟨before.1, ih before.2⟩

theorem alternates_sample (previous current : Input → Bool) (input : Input) :
    Alternates input (previous input)
      ((changes previous current inputs).filter fun condition =>
        condition = input.condition true ∨ condition = input.condition false) (current input) := by
  rw [filter_changes previous current input (by decide) (mem_inputs input)]
  by_cases changed : current input ≠ previous input
  · rw [if_pos changed]
    have flipped : current input = !previous input := Bool.eq_not.mpr changed
    exact ⟨congrArg _ flipped, flipped.symm⟩
  · rw [if_neg changed]
    exact (not_ne_iff.mp changed).symm

variable {board : Mach1}

theorem Mach1.isr_alternates {first : Bool} (interrupt : Interrupt)
    (before : Alternates input first (board.notifiedOf input) (board.current.level input)) :
    Alternates input first ((board.isr interrupt).notifiedOf input)
      ((board.isr interrupt).current.level input) := by
  rw [isr]
  by_cases passed : interrupt.time - board.previous.timestamp > holdOff
  · rw [if_pos passed, notifiedOf, filter_append]
    exact before.append (alternates_sample board.current.level interrupt.level input)
  · rw [if_neg passed]
    exact before

/-- In every run the conditions of an input take turns, from its default level to the last one. -/
theorem Mach1.run_alternates {first : Bool} (interrupts : List Interrupt)
    (before : Alternates input first (board.notifiedOf input) (board.current.level input)) :
    Alternates input first ((board.run interrupts).notifiedOf input)
      ((board.run interrupts).current.level input) := by
  induction interrupts generalizing board with
  | nil => exact before
  | cons interrupt interrupts ih =>
    exact ih (isr_alternates interrupt before)

/-! ## The samples -/

theorem Mach1.isr_accepts {interrupt : Interrupt}
    (passed : interrupt.time - board.previous.timestamp > holdOff) :
    (board.isr interrupt).previous = board.current ∧
      (board.isr interrupt).current.timestamp = interrupt.time ∧
        (board.isr interrupt).samples = board.samples ++ [interrupt.time] := by
  rw [isr, if_pos passed]
  exact ⟨rfl, rfl, rfl⟩

theorem Mach1.run_samples_extend (board : Mach1) (interrupts : List Interrupt) :
    ∃ more, (board.run interrupts).samples = board.samples ++ more := by
  induction interrupts generalizing board with
  | nil => exact ⟨[], (append_nil _).symm⟩
  | cons interrupt interrupts ih =>
    obtain ⟨more, extended⟩ := ih (board.isr interrupt)
    rw [run_cons, extended]
    by_cases passed : interrupt.time - board.previous.timestamp > holdOff
    · rw [(isr_accepts passed).2.2, append_assoc]
      exact ⟨_, rfl⟩
    · rw [isr, if_neg passed]
      exact ⟨more, rfl⟩

/-- The last two input states are samples, or the static state and a sample, that are further apart
than the hold-off. -/
structure Mach1.Sampled (board : Mach1) : Prop where
  last : ∃ earlier, board.samples = earlier ++ [board.current.timestamp]
  apart : Apart board.previous.timestamp board.current.timestamp

variable {interrupts : List Interrupt}

/-- From such a state every interrupt takes a sample, so long as the samples are apart: the times
of the interrupts are as far apart as the samples. -/
theorem Mach1.Sampled.run_iff (sampled : board.Sampled)
    (ordered : ((board.current.timestamp) :: interrupts.map (·.time)).Pairwise (· ≤ ·)) :
    (board.run interrupts).samples.IsChain Apart ↔
      (board.samples ++ interrupts.map (·.time)).IsChain Apart := by
  induction interrupts generalizing board with
  | nil => rw [map_nil, append_nil]; rfl
  | cons interrupt interrupts ih =>
    rw [map_cons] at ordered
    have notBefore : board.current.timestamp ≤ interrupt.time :=
      (pairwise_cons.mp ordered).1 _ mem_cons_self
    have passed : interrupt.time - board.previous.timestamp > holdOff := by
      have apart := sampled.apart
      simp only [Apart] at apart
      omega
    obtain ⟨previous, current, samples⟩ := isr_accepts passed
    have regroup : board.samples ++ (interrupt :: interrupts).map (·.time) =
        (board.isr interrupt).samples ++ interrupts.map (·.time) := by
      rw [samples, append_assoc]
      rfl
    rw [run_cons, regroup]
    by_cases apart : Apart board.current.timestamp interrupt.time
    · apply ih
      · exact ⟨⟨board.samples, by rw [samples, current]⟩, by rwa [previous, current]⟩
      · rw [current]
        exact (pairwise_cons.mp ordered).2
    · -- The samples already hold two times that are too close.
      have broken : ∀ more, ¬((board.isr interrupt).samples ++ more).IsChain Apart := by
        intro more chain
        obtain ⟨earlier, last⟩ := sampled.last
        rw [samples, last, append_assoc, append_assoc] at chain
        have tail := (isChain_append.mp chain).2.1
        exact apart (isChain_cons_cons.mp tail).1
      obtain ⟨more, extended⟩ := run_samples_extend (board.isr interrupt) interrupts
      rw [extended]
      exact iff_of_false (broken more) (broken _)

/-- The interrupts after the first hold-off decide whether the samples are apart. -/
theorem Mach1.start_run_iff (ordered : (interrupts.map (·.time)).Pairwise (· ≤ ·)) :
    (start.run interrupts).samples.IsChain Apart ↔
      ((interrupts.map (·.time)).filter (holdOff < ·)).IsChain Apart := by
  induction interrupts with
  | nil => exact iff_of_true .nil .nil
  | cons interrupt interrupts ih =>
    rw [map_cons] at ordered ⊢
    obtain ⟨first, rest⟩ := pairwise_cons.mp ordered
    by_cases passed : holdOff < interrupt.time
    · have accepts : interrupt.time - start.previous.timestamp > holdOff := by
        simpa [start] using passed
      obtain ⟨previous, current, samples⟩ := isr_accepts accepts
      have sampled : (start.isr interrupt).Sampled :=
        ⟨⟨[], by rw [samples, current]; rfl⟩, by rw [previous, current]; exact accepts⟩
      have allLater : (interrupts.map (·.time)).filter (holdOff < ·) = interrupts.map (·.time) := by
        rw [filter_eq_self]
        intro time later
        have notBefore := first time later
        exact decide_eq_true (by omega)
      rw [run_cons, sampled.run_iff (by rwa [current]), filter_cons_of_pos (by simpa),
        allLater, samples]
      rfl
    · have skipped : start.isr interrupt = start := by
        rw [isr, if_neg]
        simpa [start] using passed
      rw [run_cons, skipped, filter_cons_of_neg (by simpa using passed)]
      exact ih rest

/-- Samples are further apart than the hold-off exactly when the interrupts are, from the end of the
first hold-off on; the conditions of an input always take turns. -/
theorem debounce_iff {interrupts : List Interrupt}
    (ordered : (interrupts.map (·.time)).Pairwise (· ≤ ·)) :
    ((Mach1.start.run interrupts).samples.IsChain Apart ↔
      ((interrupts.map (·.time)).filter (holdOff < ·)).IsChain Apart) ∧
    ∀ input, Alternates input input.default ((Mach1.start.run interrupts).notifiedOf input)
      ((Mach1.start.run interrupts).current.level input) :=
  ⟨Mach1.start_run_iff ordered, fun _ => Mach1.run_alternates interrupts rfl⟩

/-- The brake bounces: three edges, of which the second comes a millisecond after the first. -/
def bounce : List Interrupt := [⟨60001, fun input => input = .brk ∨ input.default⟩,
  ⟨61001, Input.default⟩, ⟨200000, Input.default⟩]

/-- Two edges in a hold-off are two samples. -/
theorem debounce_bounces :
    (bounce.map (·.time)).Pairwise (· ≤ ·) ∧
      ¬(Mach1.start.run bounce).samples.IsChain Apart := by
  decide

/-- Edges that are apart are debounced. -/
theorem debounce_iff_apart :
    (Mach1.start.run [⟨60001, Input.default⟩, ⟨120002, Input.default⟩]).samples.IsChain Apart :=
  (debounce_iff (by decide)).1.mpr (by decide)

end MultiPython.Esp32.Debounce
