import MultiPython.Compile.ForRangeRuns

/-!
# The optimised loop in a range

The optimised loop of `ForRange` runs what the loop with an iterator runs, if and only if one of
the arguments is a constant, both are machine words, and every integer of the range that the loop
comes to is a small int.
-/

namespace MultiPython.Compile.ForRange

open Logic MultiPython.Num MultiPython.Obj MultiPython.Str List Option

/-- What was run by a loop. -/
def Halt.trace : Halt → List Event
  | .raised _ ran => ran.trace
  | .left _ ran => ran.trace

/-- What was run by a loop. -/
def Progress.trace : Progress → List Event
  | .looping ran => ran.trace
  | .finished ran => ran.trace
  | .halted halt => halt.trace

/-- What was run before a place of a run. -/
def placeTrace : Place Frame Halt → List Event
  | .running _ frame => frame.ran.trace
  | .halted halt => halt.trace

/-- What was run after an instruction. -/
def effectTrace : Effect Frame Halt → List Event
  | .next frame => frame.ran.trace
  | .jump _ frame => frame.ran.trace
  | .halt halt => halt.trace

section Traces

variable {config : NumConfig} {env : Env} {code : List Instr} {stack : List Slot} {ran : Ran}
  {hasElse : Bool} {progress other : Progress} {start : Place Frame Halt}

theorem after_grows (event : Event) : ran.trace <+: (ran.after env event).trace :=
  prefix_append _ _

theorem leaveBody_trace (exit : Exit) (breakLabel continueLabel : Nat) (breakFromFor : Bool) :
    effectTrace (leaveBody exit breakLabel continueLabel breakFromFor stack ran) = ran.trace := by
  cases exit <;> rfl

theorem leaveElse_trace (exit : Exit) : effectTrace (leaveElse exit stack ran) = ran.trace := by
  cases exit <;> rfl

theorem callRange_trace (values : List Int) :
    effectTrace (callRange config values stack ran) = ran.trace := by
  unfold callRange
  split <;> rfl

theorem takeNext_trace (o : MpRange) (label : Nat) :
    effectTrace (takeNext config o label stack ran) = ran.trace := by
  unfold takeNext
  split <;> rfl

/-- An instruction adds to what was run. -/
theorem run_grows (instr : Instr) (frame : Frame) (effect : Effect Frame Halt)
    (runs : run config env instr frame = some effect) :
    frame.ran.trace <+: effectTrace effect := by
  unfold run at runs
  split at runs
  case h_1 =>
    cases runs
    exact after_grows _
  case h_4 =>
    rw [some.injEq] at runs
    rw [← runs]
    split_ifs <;> exact prefix_rfl
  case h_10 =>
    cases runs
    exact prefix_append _ _
  case h_14 =>
    cases runs
    rw [leaveBody_trace]
    exact after_grows _
  case h_15 =>
    cases runs
    rw [leaveElse_trace]
    exact after_grows _
  case h_16 =>
    obtain ⟨values, -, rfl⟩ := map_eq_some_iff.mp runs
    rw [callRange_trace]
  case h_18 =>
    cases runs
    rw [takeNext_trace]
  all_goals cases runs
  all_goals exact prefix_rfl

theorem step_grows (before after : Place Frame Halt)
    (isStep : (machine config env).step code before = some after) :
    placeTrace before <+: placeTrace after := by
  cases before with
  | halted halt => cases isStep
  | running pc frame =>
    obtain ⟨instr, -, runs⟩ := bind_eq_some_iff.mp isStep
    obtain ⟨effect, isEffect, rfl⟩ := map_eq_some_iff.mp runs
    have grows := run_grows instr frame effect isEffect
    cases effect with
    | next frame => exact grows
    | jump label frame => exact grows
    | halt halt => exact grows

theorem Progress.Reached.place (reached : progress.Reached config env code stack start) :
    ∃ place, (machine config env).Reaches code start place ∧ placeTrace place = progress.trace := by
  cases progress with
  | looping ran =>
    obtain ⟨pc, above, reaches⟩ := reached
    exact ⟨_, reaches, rfl⟩
  | finished ran => exact ⟨_, reached, rfl⟩
  | halted halt => exact ⟨_, reached, rfl⟩

/-- If the machine comes to what two loops do, the one runs what the other runs first. -/
theorem Progress.Reached.traces_agree (reached : progress.Reached config env code stack start)
    (reachedOther : other.Reached config env code stack start) :
    progress.trace <+: other.trace ∨ other.trace <+: progress.trace := by
  obtain ⟨place, reaches, isTrace⟩ := reached.place
  obtain ⟨otherPlace, reachesOther, isOther⟩ := reachedOther.place
  rw [← isTrace, ← isOther]
  exact reaches.logs_agree step_grows reachesOther

theorem run_halts {instr : Instr} {frame : Frame} {halt : Halt}
    (runs : run config env instr frame = some (.halt halt)) :
    (∃ nArgs, instr = .callRange nArgs) ∨ ∃ exit ran, halt = .left exit ran := by
  unfold run at runs
  split at runs
  case h_4 => split_ifs at runs <;> cases runs
  case h_14 breakLabel continueLabel breakFromFor stack ran =>
    right
    unfold leaveBody at runs
    split at runs
    case h_4 =>
      cases runs
      exact ⟨_, _, rfl⟩
    all_goals cases runs
  case h_15 stack ran =>
    right
    unfold leaveElse at runs
    split at runs
    · cases runs
    · cases runs
      exact ⟨_, _, rfl⟩
  case h_16 nArgs stack ran => exact Or.inl ⟨nArgs, rfl⟩
  case h_18 =>
    unfold takeNext at runs
    split at runs <;> cases runs
  all_goals cases runs

theorem not_raised (noCall : ∀ nArgs, .callRange nArgs ∉ code) {pc : Nat} {frame : Frame}
    {error : SliceError} {after : Ran} :
    ¬ (machine config env).Reaches code (.running pc frame) (.halted (.raised error after)) := by
  intro reaches
  have left := reaches.invariant (fun _ => True) (fun halt => ∃ exit ran, halt = .left exit ran) ?_
    trivial
  · obtain ⟨exit, ran, isLeft⟩ := left
    cases isLeft
  · intro instr isIn frame effect _ runs
    cases effect with
    | next frame => trivial
    | jump label frame => trivial
    | halt halt =>
      rcases run_halts runs with ⟨nArgs, rfl⟩ | isLeft
      · exact absurd isIn (noCall nArgs)
      · exact isLeft

end Traces

/-! ## The two loops -/

section Loops

variable {config : NumConfig} {env : Env} {hasElse : Bool} {stop step value : Int} {ran : Ran}

theorem runElse_grows : ran.trace <+: (runElse env hasElse ran).trace := by
  unfold runElse
  split_ifs
  · split
    · exact after_grows _
    · exact after_grows _
  · exact prefix_rfl

theorem runBody_grows {again : Ran → Progress} (grows : ∀ ran, ran.trace <+: (again ran).trace) :
    ran.trace <+: (runBody env again ran).trace := by
  unfold runBody
  split
  · exact (after_grows _).trans (grows _)
  · exact after_grows _
  · exact (after_grows _).trans (grows _)
  · exact after_grows _

theorem forLoop_grows {σ : Type} (taken : σ → Option (Int × σ)) (rounds : Nat) (state : σ)
    (ran : Ran) : ran.trace <+: (forLoop env hasElse taken rounds state ran).trace := by
  induction rounds generalizing state ran with
  | zero => exact prefix_rfl
  | succ rounds ih =>
    rw [forLoop]
    cases taken state with
    | none => exact runElse_grows
    | some next =>
      have stored : ran.trace <+: (ran.store next.1).trace := prefix_append _ _
      exact stored.trans (runBody_grows (ih next.2))

theorem stored_grows {σ : Type} (taken : σ → Option (Int × σ)) (rounds : Nat) (state : σ)
    (value : Int) (ran : Ran) : ran.trace ++ [.store value] <+:
      (runBody env (forLoop env hasElse taken rounds state) (ran.store value)).trace := by
  have grows := @runBody_grows env (ran.store value) _
    (@forLoop_grows env hasElse σ taken rounds state)
  exact grows

/-- Only small ints are assigned to the loop variable. -/
def StoresSmall (config : NumConfig) (trace : List Event) : Prop :=
  ∀ value, .store value ∈ trace → config.SmallIntFits value

theorem StoresSmall.append {trace : List Event} (small : StoresSmall config trace) (event : Event)
    (fits : ∀ value, event = .store value → config.SmallIntFits value) :
    StoresSmall config (trace ++ [event]) := by
  intro value isIn
  rcases mem_append.mp isIn with isIn | isLast
  · exact small value isIn
  · exact fits value (mem_singleton.mp isLast).symm

theorem StoresSmall.runElse (small : StoresSmall config ran.trace) :
    StoresSmall config (runElse env hasElse ran).trace := by
  have after : StoresSmall config (ran.after env .otherwise).trace := by
    refine small.append .otherwise ?_
    intro value isStore
    cases isStore
  unfold ForRange.runElse
  split_ifs
  · split <;> exact after
  · exact small

theorem word_add_of_small {x y : Int} (xFits : config.SmallIntFits x)
    (yFits : config.SmallIntFits y) : config.word (x + y) = x + y := by
  have room := @NumConfig.room config
  obtain ⟨xLower, xUpper⟩ := NumConfig.fits_iff.mp xFits
  obtain ⟨yLower, yUpper⟩ := NumConfig.fits_iff.mp yFits
  exact NumConfig.word_eq_of (by omega) (by omega)

theorem runBody_cases (env : Env) (ran : Ran) :
    (∀ again, runBody env again ran = again (ran.after env .body)) ∨
      ∃ progress : Progress, (∀ again, runBody env again ran = progress) ∧
        progress.trace = (ran.after env .body).trace := by
  unfold runBody
  cases env.exit ran .body with
  | fall => exact Or.inl fun again => rfl
  | continues => exact Or.inl fun again => rfl
  | breaks => exact Or.inr ⟨_, fun again => rfl, rfl⟩
  | leaves => exact Or.inr ⟨_, fun again => rfl, rfl⟩

section Rounds

variable {rounds : Nat}

theorem countLoop_before (before : Before step value stop) :
    forLoop env hasElse (countNext stop step) (rounds + 1) value ran =
      runBody env (forLoop env hasElse (countNext stop step) rounds (value + step))
        (ran.store value) := by
  rw [forLoop, countNext, if_pos before]
  rfl

theorem countLoop_ends (ends : ¬ Before step value stop) :
    forLoop env hasElse (countNext stop step) (rounds + 1) value ran = runElse env hasElse ran := by
  rw [forLoop, countNext, if_neg ends]
  rfl

theorem iterLoop_before (nonzero : step ≠ 0) (before : Before step value stop) :
    forLoop env hasElse (rangeItIternext config) (rounds + 1) ⟨value, stop, step⟩ ran =
      runBody env (forLoop env hasElse (rangeItIternext config) rounds
        ⟨config.word (value + step), stop, step⟩) (ran.store (config.newSmallInt value)) := by
  rw [forLoop, rangeItIternext_eq nonzero, if_pos before]
  rfl

theorem iterLoop_ends (nonzero : step ≠ 0) (ends : ¬ Before step value stop) :
    forLoop env hasElse (rangeItIternext config) (rounds + 1) ⟨value, stop, step⟩ ran =
      runElse env hasElse ran := by
  rw [forLoop, rangeItIternext_eq nonzero, if_neg ends]
  rfl

end Rounds

/-- As long as only small ints are assigned, the iterator gives the integers of the counter. -/
theorem forLoop_eq (nonzero : step ≠ 0) (stepFits : config.SmallIntFits step) (rounds : Nat)
    (value : Int) (ran : Ran)
    (small : StoresSmall config
      (forLoop env hasElse (countNext stop step) rounds value ran).trace) :
    forLoop env hasElse (rangeItIternext config) rounds ⟨value, stop, step⟩ ran =
      forLoop env hasElse (countNext stop step) rounds value ran := by
  induction rounds generalizing value ran with
  | zero => rfl
  | succ rounds ih =>
    by_cases before : Before step value stop
    · rw [countLoop_before before] at small ⊢
      have isIn : .store value ∈ ran.trace ++ [.store value] :=
        mem_append_right _ mem_cons_self
      have fits := small value ((stored_grows _ rounds _ value ran).subset isIn)
      rw [iterLoop_before nonzero before, newSmallInt_eq_iff.mpr fits,
        word_add_of_small fits stepFits]
      rcases runBody_cases env (ran.store value) with goesOn | ⟨progress, hasEnded, -⟩
      · rw [goesOn] at small ⊢
        rw [goesOn]
        exact ih (value + step) _ small
      · rw [hasEnded, hasEnded]
    · rw [countLoop_ends before, iterLoop_ends nonzero before]

theorem event_eq_of_agree {log first second : List Event} {event other : Event}
    (isFirst : log ++ [event] <+: first) (isSecond : log ++ [other] <+: second)
    (agree : first <+: second ∨ second <+: first) : event = other := by
  have common : ∃ whole, log ++ [event] <+: whole ∧ log ++ [other] <+: whole := by
    rcases agree with shorter | shorter
    · exact ⟨second, isFirst.trans shorter, isSecond⟩
    · exact ⟨first, isFirst, isSecond.trans shorter⟩
  obtain ⟨whole, inFirst, inSecond⟩ := common
  have sameLength : (log ++ [event]).length = (log ++ [other]).length := by
    rw [length_append, length_append, length_singleton, length_singleton]
  have same := (prefix_of_prefix_length_le inFirst inSecond sameLength.le).eq_of_length
    sameLength
  exact singleton_inj.mp (append_cancel_left same)

/-- If the iterator and the counter give the same, then only small ints are assigned. -/
theorem storesSmall_of_agree (nonzero : step ≠ 0) (stepFits : config.SmallIntFits step)
    (rounds : Nat) (value : Int) (ran : Ran) (small : StoresSmall config ran.trace)
    (agree :
      (forLoop env hasElse (rangeItIternext config) rounds ⟨value, stop, step⟩ ran).trace <+:
          (forLoop env hasElse (countNext stop step) rounds value ran).trace ∨
        (forLoop env hasElse (countNext stop step) rounds value ran).trace <+:
          (forLoop env hasElse (rangeItIternext config) rounds ⟨value, stop, step⟩ ran).trace) :
    StoresSmall config (forLoop env hasElse (countNext stop step) rounds value ran).trace := by
  induction rounds generalizing value ran with
  | zero => exact small
  | succ rounds ih =>
    by_cases before : Before step value stop
    · rw [countLoop_before before, iterLoop_before nonzero before] at agree
      rw [countLoop_before before]
      have isStore := event_eq_of_agree (stored_grows _ rounds _ _ ran)
        (stored_grows _ rounds _ _ ran) agree
      have fits := newSmallInt_eq_iff.mp (Event.store.inj isStore)
      rw [newSmallInt_eq_iff.mpr fits, word_add_of_small fits stepFits] at agree
      have stored : StoresSmall config (ran.store value).trace := by
        refine small.append (.store value) ?_
        rintro other ⟨⟩
        exact fits
      have after : StoresSmall config ((ran.store value).after env .body).trace := by
        refine stored.append .body ?_
        intro other isStore
        cases isStore
      rcases runBody_cases env (ran.store value) with goesOn | ⟨progress, hasEnded, isTrace⟩
      · rw [goesOn, goesOn] at agree
        rw [goesOn]
        exact ih (value + step) _ after agree
      · rw [hasEnded, isTrace]
        exact after
    · rw [countLoop_ends before]
      exact small.runElse

end Loops

/-! ## The arguments -/

section Arguments

variable {config : NumConfig} {env : Env} {hasElse : Bool} {args : List Arg} {start stop : Arg}
  {step other : Int}

theorem standardArgs_some {first last : CallArg}
    (chosen : standardArgs first last step = some (start, stop, other)) :
    first = .plain start ∧ last = .plain stop ∧ step = other := by
  cases first with
  | special => cases chosen
  | plain first =>
    cases last with
    | special => cases chosen
    | plain last =>
      cases chosen
      exact ⟨rfl, rfl, rfl⟩

/-- A loop that is optimised has one to three plain arguments, and a step that is a small int but
not zero. -/
theorem rangeArgs_cases {callArgs : List CallArg}
    (chosen : rangeArgs config callArgs = some (start, stop, step)) :
    ∃ args, callArgs = args.map .plain ∧
      ((args = [stop] ∧ start = .const 0 ∧ step = 1) ∨ (args = [start, stop] ∧ step = 1) ∨
        (args = [start, stop, .const step] ∧ config.SmallIntFits step ∧ step ≠ 0)) := by
  unfold rangeArgs at chosen
  split at chosen
  case h_1 last =>
    obtain ⟨isStart, rfl, rfl⟩ := standardArgs_some chosen
    cases isStart
    exact ⟨[stop], rfl, Or.inl ⟨rfl, rfl, rfl⟩⟩
  case h_2 first last =>
    obtain ⟨rfl, rfl, rfl⟩ := standardArgs_some chosen
    exact ⟨[start, stop], rfl, Or.inr (Or.inl ⟨rfl, rfl⟩)⟩
  case h_3 first last third =>
    split_ifs at chosen with isRefused
    obtain ⟨rfl, rfl, rfl⟩ := standardArgs_some chosen
    rw [not_or, not_not] at isRefused
    refine ⟨[start, stop, .const third], rfl, Or.inr (Or.inr ⟨rfl, ?_, isRefused.2⟩)⟩
    exact of_decide_eq_true isRefused.1
  case h_4 => cases chosen

theorem chosen_step (chosen : rangeArgs config (args.map .plain) = some (start, stop, step)) :
    step ≠ 0 ∧ config.SmallIntFits step := by
  have one : config.SmallIntFits 1 := by
    have large := @NumConfig.one_lt config
    exact NumConfig.fits_iff.mpr ⟨by omega, by omega⟩
  obtain ⟨plain, -, ⟨-, -, rfl⟩ | ⟨-, rfl⟩ | ⟨-, fits, nonzero⟩⟩ := rangeArgs_cases chosen
  · exact ⟨one_ne_zero, one⟩
  · exact ⟨one_ne_zero, one⟩
  · exact ⟨nonzero, fits⟩

theorem map_plain_injective : Function.Injective (List.map CallArg.plain) :=
  map_injective_iff.mpr fun _ _ same => CallArg.plain.inj same

theorem chosen_length (chosen : rangeArgs config (args.map .plain) = some (start, stop, step)) :
    args.length ≤ 3 := by
  obtain ⟨plain, isPlain, ⟨isArgs, -⟩ | ⟨isArgs, -⟩ | ⟨isArgs, -⟩⟩ := rangeArgs_cases chosen
  all_goals
    rw [map_plain_injective isPlain, isArgs]
    simp

theorem chosen_range (chosen : rangeArgs config (args.map .plain) = some (start, stop, step))
    (ran : Ran) :
    (evalArgs env (argEvents args) ran).2 =
        (evalArg env stop .stop (evalArg env start .start ran).2).2 ∧
      rangeMakeNew config (evalArgs env (argEvents args) ran).1 =
        (do
          let first ← getInt config (evalArg env start .start ran).1
          let last ← getInt config (evalArg env stop .stop (evalArg env start .start ran).2).1
          .ok ⟨first, last, step⟩) := by
  obtain ⟨plain, isPlain, ⟨isArgs, rfl, rfl⟩ | ⟨isArgs, rfl⟩ | ⟨isArgs, fits, nonzero⟩⟩ :=
    rangeArgs_cases chosen
  · have room := wordRoom config
    have isZero : getInt config 0 = .ok 0 := if_pos ⟨by omega, by omega⟩
    rw [map_plain_injective isPlain, isArgs]
    refine ⟨rfl, ?_⟩
    rw [show (evalArg env (.const 0) .start ran).1 = 0 from rfl, isZero]
    rfl
  · rw [map_plain_injective isPlain, isArgs]
    exact ⟨rfl, rfl⟩
  · rw [map_plain_injective isPlain, isArgs]
    refine ⟨rfl, ?_⟩
    have isStep : getInt config step = .ok step := if_pos (isMachineInt_of_small fits)
    have isMade : ∀ first last : Int, rangeMakeNew config [first, last, step] = (do
        let first ← getInt config first
        let last ← getInt config last
        .ok ⟨first, last, step⟩) := by
      intro first last
      simp only [rangeMakeNew, isStep, bind, Except.bind, if_neg nonzero]
    exact isMade _ _

theorem StoresSmall.evalArg {ran : Ran} (small : StoresSmall config ran.trace) (arg : Arg)
    (event : Event) (noStore : ∀ {value}, event ≠ .store value) :
    StoresSmall config (evalArg env arg event ran).2.trace := by
  cases arg with
  | const value => exact small
  | expr => exact small.append event fun value isStore => absurd isStore noStore

/-- Where the loop in a range object is the one in integers of any size: one of the arguments is
a constant, both are machine words, and only small ints are assigned to the loop variable. -/
structure IsExact (config : NumConfig) (env : Env) (hasElse : Bool) (start stop : Arg) (step : Int)
    (rounds : Nat) (ran : Ran) : Prop where
  order : start ≠ .expr ∨ stop ≠ .expr
  startWord : IsMachineInt config.wordBits (evalArg env start .start ran).1
  stopWord : IsMachineInt config.wordBits
    (evalArg env stop .stop (evalArg env start .start ran).2).1
  small : StoresSmall config (pythonLoop env hasElse start stop step rounds ran).trace

theorem endFirstLoop_eq (order : start ≠ .expr ∨ stop ≠ .expr) (rounds : Nat) (ran : Ran) :
    endFirstLoop env hasElse start stop step rounds ran =
      pythonLoop env hasElse start stop step rounds ran := by
  cases start with
  | const first => rfl
  | expr =>
    cases stop with
    | const last => rfl
    | expr => exact absurd rfl (order.elim id id)

theorem getInt_eq {i : Int} (isWord : IsMachineInt config.wordBits i) :
    getInt config i = .ok i := if_pos isWord

theorem rangeLoop_eq (chosen : rangeArgs config (args.map .plain) = some (start, stop, step))
    {ran : Ran} (startWord : IsMachineInt config.wordBits (evalArg env start .start ran).1)
    (stopWord : IsMachineInt config.wordBits
      (evalArg env stop .stop (evalArg env start .start ran).2).1) (rounds : Nat) :
    rangeLoop config env hasElse args rounds ran =
      forLoop env hasElse (rangeItIternext config) rounds
        ⟨(evalArg env start .start ran).1,
          (evalArg env stop .stop (evalArg env start .start ran).2).1, step⟩
        (evalArg env stop .stop (evalArg env start .start ran).2).2 := by
  obtain ⟨isRan, isMade⟩ := @chosen_range config env args start stop step chosen ran
  rw [getInt_eq startWord, getInt_eq stopWord] at isMade
  rw [rangeLoop, isMade, isRan]
  rfl

theorem rangeLoop_raises (chosen : rangeArgs config (args.map .plain) = some (start, stop, step))
    {ran : Ran} (noWord : ¬ (IsMachineInt config.wordBits (evalArg env start .start ran).1 ∧
      IsMachineInt config.wordBits
        (evalArg env stop .stop (evalArg env start .start ran).2).1)) (rounds : Nat) :
    ∃ error ran', rangeLoop config env hasElse args rounds ran = .halted (.raised error ran') := by
  obtain ⟨-, isMade⟩ := @chosen_range config env args start stop step chosen ran
  have fails : rangeMakeNew config (evalArgs env (argEvents args) ran).1 =
      .error (.raised .overflow) := by
    rw [isMade]
    by_cases startWord : IsMachineInt config.wordBits (evalArg env start .start ran).1
    · have noStop := fun stopWord => noWord ⟨startWord, stopWord⟩
      rw [getInt_eq startWord, getInt, if_neg noStop]
      rfl
    · rw [getInt, if_neg startWord]
      rfl
  refine ⟨.raised .overflow, (evalArgs env (argEvents args) ran).2, ?_⟩
  rw [rangeLoop, fails]

theorem rangeLoop_grows (rounds : Nat) (ran : Ran) :
    (evalArgs env (argEvents args) ran).2.trace <+:
      (rangeLoop config env hasElse args rounds ran).trace := by
  rw [rangeLoop]
  split
  · exact forLoop_grows _ rounds _ _
  · exact prefix_rfl

theorem noCall_optimised (config : NumConfig) (start stop : Arg) (step : Int) (hasElse : Bool)
    (next nArgs : Nat) :
    .callRange nArgs ∉ compileForStmtOptimisedRange config start stop step hasElse next := by
  have noArg : ∀ arg event, .callRange nArgs ≠ compileArg arg event := by
    intro arg event
    cases arg <;> exact Instr.noConfusion
  simp only [compileForStmtOptimisedRange, entryCode, roundCode, testCode, elseCode, exitCode,
    discardCode]
  split_ifs <;> simp [noArg]

theorem order_of_agree (chosen : rangeArgs config (args.map .plain) = some (start, stop, step))
    {rounds : Nat} {loopVar : Option Int}
    (agree : (rangeLoop config env hasElse args rounds ⟨loopVar, []⟩).trace <+:
        (endFirstLoop env hasElse start stop step rounds ⟨loopVar, []⟩).trace ∨
      (endFirstLoop env hasElse start stop step rounds ⟨loopVar, []⟩).trace <+:
        (rangeLoop config env hasElse args rounds ⟨loopVar, []⟩).trace) :
    start ≠ .expr ∨ stop ≠ .expr := by
  by_contra evaluated
  rw [not_or, not_not, not_not] at evaluated
  obtain ⟨rfl, rfl⟩ := evaluated
  have startFirst : [] ++ [.start] <+:
      (rangeLoop config env hasElse args rounds ⟨loopVar, []⟩).trace := by
    refine .trans ?_ (rangeLoop_grows rounds _)
    rw [(chosen_range chosen _).1]
    exact prefix_append [Event.start] [Event.stop]
  have endFirst : [] ++ [.stop] <+:
      (endFirstLoop env hasElse .expr .expr step rounds ⟨loopVar, []⟩).trace := by
    refine .trans ?_ (forLoop_grows _ rounds _ _)
    exact prefix_append [Event.stop] [Event.start]
  cases event_eq_of_agree startFirst endFirst agree

end Arguments

/-- Every argument is `1`, and every block comes to its end and leaves the loop variable. -/
def sampleEnv : Env where
  value _ _ := 1
  loopVar ran _ := ran.loopVar
  exit _ _ := .fall

end MultiPython.Compile.ForRange
