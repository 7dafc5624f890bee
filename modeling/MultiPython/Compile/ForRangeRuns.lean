import MultiPython.Compile.ForRange

/-!
# Runs of loops in a range

The code of each of the two loops of `ForRange` runs what its loop is: the one with an iterator
that of a range object, the optimised one that of a counter.
-/

namespace MultiPython.Compile.ForRange

open Logic MultiPython.Num MultiPython.Obj List

variable {config : NumConfig} {env : Env} {code : List Instr} {stack : List Slot} {ran : Ran}
  {start : Place Frame Halt} {stop : Arg} {step value last : Int} {hasElse : Bool} {pc : Nat}

/-- The machine comes to what a loop does, with nothing left on the stack behind it. -/
def Progress.Reached (config : NumConfig) (env : Env) (code : List Instr) (stack : List Slot)
    (start : Place Frame Halt) : Progress → Prop
  | .looping ran => ∃ pc above,
      (machine config env).Reaches code start (.running pc ⟨above ++ stack, ran⟩)
  | .finished ran => (machine config env).Reaches code start (.running code.length ⟨stack, ran⟩)
  | .halted halt => (machine config env).Reaches code start (.halted halt)

theorem Progress.Reached.after {progress : Progress} {middle : Place Frame Halt}
    (reaches : (machine config env).Reaches code start middle)
    (reached : progress.Reached config env code stack middle) :
    progress.Reached config env code stack start := by
  cases progress with
  | looping ran =>
    obtain ⟨pc, above, later⟩ := reached
    exact ⟨pc, above, reaches.trans later⟩
  | finished ran => exact reaches.trans reached
  | halted halt => exact reaches.trans reached

theorem compileArg_reaches {arg : Arg} {event : Event}
    (here : code[pc]? = some (compileArg arg event)) :
    (machine config env).Reaches code (.running pc ⟨stack, ran⟩)
      (.running (pc + 1)
        ⟨.int (evalArg env arg event ran).1 :: stack, (evalArg env arg event ran).2⟩) := by
  cases arg with
  | const value => exact LabelLang.reaches_next here rfl
  | expr => exact LabelLang.reaches_next here rfl

theorem otherwise_reached (here : code[pc]? = some .otherwise)
    (goesOn : ∀ ran, (machine config env).Reaches code (.running (pc + 1) ⟨stack, ran⟩)
      (.running code.length ⟨stack, ran⟩)) :
    (runElse env true ran).Reached config env code stack (.running pc ⟨stack, ran⟩) := by
  have runs : run config env .otherwise ⟨stack, ran⟩ =
      some (leaveElse (env.exit ran .otherwise) stack (ran.after env .otherwise)) := rfl
  rw [runElse, if_pos rfl]
  cases isExit : env.exit ran .otherwise with
  | fall =>
    rw [isExit] at runs
    exact .trans (LabelLang.reaches_next here runs) (goesOn _)
  | breaks =>
    rw [isExit] at runs
    exact LabelLang.reaches_halt here runs
  | continues =>
    rw [isExit] at runs
    exact LabelLang.reaches_halt here runs
  | leaves =>
    rw [isExit] at runs
    exact LabelLang.reaches_halt here runs

theorem body_reached {breakLabel continueLabel : Nat} {breakFromFor : Bool} {slots : List Slot}
    {again : Ran → Progress}
    (here : code[pc]? = some (.body breakLabel continueLabel breakFromFor))
    (falls : env.exit ran .body = .fall →
      (again (ran.after env .body)).Reached config env code stack
        (.running (pc + 1) ⟨slots, ran.after env .body⟩))
    (continues : (again (ran.after env .body)).Reached config env code stack
      (.running ((machine config env).offset code continueLabel) ⟨slots, ran.after env .body⟩))
    (breaks : ∀ ran, (machine config env).Reaches code
      (.running ((machine config env).offset code breakLabel)
        ⟨if breakFromFor then slots.tail else slots, ran⟩) (.running code.length ⟨stack, ran⟩)) :
    (runBody env again ran).Reached config env code stack (.running pc ⟨slots, ran⟩) := by
  have runs : run config env (.body breakLabel continueLabel breakFromFor) ⟨slots, ran⟩ =
      some (leaveBody (env.exit ran .body) breakLabel continueLabel breakFromFor slots
        (ran.after env .body)) := rfl
  unfold runBody
  cases isExit : env.exit ran .body with
  | fall =>
    rw [isExit] at runs
    exact .after (LabelLang.reaches_next here runs) (falls isExit)
  | breaks =>
    rw [isExit] at runs
    exact .trans (LabelLang.reaches_jump here runs) (breaks _)
  | continues =>
    rw [isExit] at runs
    exact .after (LabelLang.reaches_jump here runs) continues
  | leaves =>
    rw [isExit] at runs
    exact LabelLang.reaches_halt here runs

/-! ## The optimised loop -/

/-- The counter, and the end if it is not a constant of the code. -/
def counters (config : NumConfig) (stop : Arg) (last value : Int) : List Slot :=
  .int value :: if isSmallInt config stop then [] else [.int last]

/-- The end of the loop is the one of the code if that is a constant of it. -/
def IsLast (config : NumConfig) (stop : Arg) (last : Int) : Prop :=
  isSmallInt config stop = true → stop = .const last

theorem discardCode_reaches (located : PieceAt code pc (discardCode config stop)) :
    (machine config env).Reaches code
      (.running pc ⟨counters config stop last value ++ stack, ran⟩)
      (.running (pc + (discardCode config stop).length) ⟨stack, ran⟩) := by
  unfold discardCode counters at *
  split_ifs at located ⊢
  · exact LabelLang.reaches_next located.head rfl
  · exact .trans (LabelLang.reaches_next located.head rfl)
      (LabelLang.reaches_next located.tail.head rfl)

theorem compare_reaches {topLabel : Nat} (nonzero : step ≠ 0)
    (located : PieceAt code pc [if step ≥ 0 then .less else .more, .popJumpIf true topLabel]) :
    (machine config env).Reaches code (.running pc ⟨.int last :: .int value :: stack, ran⟩)
      (.running (if Before step value last then (machine config env).offset code topLabel
        else pc + 1 + 1) ⟨stack, ran⟩) := by
  have compares : run config env (if step ≥ 0 then .less else .more)
      ⟨.int last :: .int value :: stack, ran⟩ =
        some (.next ⟨.bool (Before step value last) :: stack, ran⟩) := by
    rcases lt_or_gt_of_ne nonzero with down | up
    · have same : decide (value > last) = decide (Before step value last) :=
        decide_eq_decide.mpr (before_down down).symm
      rw [if_neg (by omega), ← same]
      rfl
    · have same : decide (value < last) = decide (Before step value last) :=
        decide_eq_decide.mpr (before_up up).symm
      rw [if_pos up.le, ← same]
      rfl
  refine .trans (LabelLang.reaches_next located.head compares) ?_
  by_cases before : Before step value last
  · rw [if_pos before]
    refine LabelLang.reaches_jump located.tail.head ?_
    exact congrArg some (if_pos (decide_eq_true before))
  · rw [if_neg before]
    refine LabelLang.reaches_next located.tail.head ?_
    exact congrArg some (if_neg (by simpa using before))

theorem testCode_reaches {topLabel : Nat} (isLast : IsLast config stop last) (nonzero : step ≠ 0)
    (located : PieceAt code pc (testCode config stop step topLabel)) :
    (machine config env).Reaches code
      (.running pc ⟨counters config stop last value ++ stack, ran⟩)
      (.running (if Before step value last then (machine config env).offset code topLabel
        else pc + (testCode config stop step topLabel).length)
        ⟨counters config stop last value ++ stack, ran⟩) := by
  by_cases isSmall : isSmallInt config stop = true
  · have isBehind : pc + (testCode config stop step topLabel).length = pc + 1 + 1 + 1 + 1 := by
      rw [testCode, if_pos isSmall]
      rfl
    rw [testCode, if_pos isSmall] at located
    have isStop := isLast isSmall
    subst isStop
    rw [isBehind]
    refine .trans (LabelLang.reaches_next located.head rfl) ?_
    refine .trans (compileArg_reaches located.tail.head) ?_
    exact compare_reaches nonzero located.tail.tail
  · have isBehind : pc + (testCode config stop step topLabel).length = pc + 1 + 1 + 1 + 1 := by
      rw [testCode, if_neg isSmall]
      rfl
    rw [testCode, if_neg isSmall] at located
    have isCounters : counters config stop last value = [.int value, .int last] := by
      rw [counters, if_neg isSmall]
    rw [isBehind, isCounters]
    refine .trans (LabelLang.reaches_next located.head rfl) ?_
    refine .trans (LabelLang.reaches_next located.tail.head rfl) ?_
    exact compare_reaches nonzero located.tail.tail

section Optimised

variable {breakLabel continueLabel topLabel entryLabel endLabel : Nat}

theorem exitCode_reaches
    (located : PieceAt code pc (exitCode config stop hasElse breakLabel endLabel))
    (isEnd : pc + (exitCode config stop hasElse breakLabel endLabel).length = code.length) :
    (machine config env).Reaches code (.running pc ⟨counters config stop last value ++ stack, ran⟩)
      (.running code.length ⟨stack, ran⟩) := by
  have discards := located.tail.left
  refine .trans (LabelLang.reaches_next located.head rfl) ?_
  refine .trans (discardCode_reaches discards) ?_
  rw [← isEnd, exitCode, length_cons, length_append]
  cases hasElse with
  | false =>
    have isSame : pc + ((discardCode config stop).length +
        (if false = true then [Instr.labelAssign endLabel] else []).length + 1) =
          pc + 1 + (discardCode config stop).length := by
      simp
      omega
    rw [isSame]
    exact .refl _
  | true =>
    have isNext : pc + ((discardCode config stop).length +
        (if true = true then [Instr.labelAssign endLabel] else []).length + 1) =
          pc + 1 + (discardCode config stop).length + 1 := by
      simp
      omega
    rw [isNext]
    exact LabelLang.reaches_next located.tail.right.head rfl

theorem elseCode_reached (distinct : ((machine config env).labels code).Nodup)
    (located : PieceAt code pc (elseCode config stop hasElse endLabel ++
      exitCode config stop hasElse breakLabel endLabel))
    (isEnd : pc + (elseCode config stop hasElse endLabel ++
      exitCode config stop hasElse breakLabel endLabel).length = code.length) :
    (runElse env hasElse ran).Reached config env code stack
      (.running pc ⟨counters config stop last value ++ stack, ran⟩) := by
  cases hasElse with
  | false => exact exitCode_reaches located isEnd
  | true =>
    have discards : PieceAt code pc (discardCode config stop) := located.left.left
    have otherwise : PieceAt code (pc + (discardCode config stop).length)
        [.otherwise, .jump endLabel] := located.left.right
    have isLabel := LabelLang.offset_pieceAt distinct located.right.tail.right rfl
    have isBehind : pc + (elseCode config stop true endLabel).length + 1 +
        (discardCode config stop).length + 1 = code.length := by
      rw [← isEnd, length_append, exitCode, length_cons, length_append, if_pos rfl,
        length_singleton]
      omega
    refine .after (discardCode_reaches discards) (otherwise_reached otherwise.head ?_)
    intro after
    refine .trans (LabelLang.reaches_jump otherwise.tail.head rfl) ?_
    rw [isLabel, ← isBehind]
    exact LabelLang.reaches_next located.right.tail.right.head rfl

/-- The rounds of the optimised loop from its test on. -/
theorem rounds_reached (distinct : ((machine config env).labels code).Nodup)
    (isLast : IsLast config stop last) (nonzero : step ≠ 0)
    (located : PieceAt code pc (roundCode step breakLabel continueLabel topLabel entryLabel ++
      (testCode config stop step topLabel ++ (elseCode config stop hasElse endLabel ++
        exitCode config stop hasElse breakLabel endLabel))))
    (isEnd : pc + (roundCode step breakLabel continueLabel topLabel entryLabel ++
      (testCode config stop step topLabel ++ (elseCode config stop hasElse endLabel ++
        exitCode config stop hasElse breakLabel endLabel))).length = code.length)
    (rounds : Nat) (value : Int) (ran : Ran) :
    (forLoop env hasElse (countNext last step) rounds value ran).Reached config env code stack
      (.running ((machine config env).offset code entryLabel)
        ⟨counters config stop last value ++ stack, ran⟩) := by
  induction rounds generalizing value ran with
  | zero => exact ⟨_, counters config stop last value, .refl _⟩
  | succ rounds ih =>
    have entry := located.tail.tail.tail.tail.tail.tail.tail
    rw [LabelLang.offset_pieceAt distinct entry rfl] 
    refine .after (LabelLang.reaches_next entry.head rfl) ?_
    refine .after (testCode_reaches isLast nonzero located.right.left) ?_
    have rest := located.right.right
    rw [length_append, length_append, ← Nat.add_assoc, ← Nat.add_assoc] at isEnd
    rw [forLoop, countNext]
    by_cases before : Before step value last
    · rw [if_pos before, if_pos before, LabelLang.offset_pieceAt distinct located rfl]
      refine .after (LabelLang.reaches_next located.head rfl) ?_
      refine .after (LabelLang.reaches_next located.tail.head rfl) ?_
      refine .after (LabelLang.reaches_next located.tail.tail.head rfl) ?_
      have continues := located.tail.tail.tail.tail
      -- the counter is moved behind the body
      have advances : ∀ after : Ran, (machine config env).Reaches code
          (.running (pc + 1 + 1 + 1 + 1) ⟨counters config stop last value ++ stack, after⟩)
          (.running ((machine config env).offset code entryLabel)
            ⟨counters config stop last (value + step) ++ stack, after⟩) := by
        intro after
        rw [LabelLang.offset_pieceAt distinct entry rfl]
        refine .trans (LabelLang.reaches_next continues.head rfl) ?_
        refine .trans (LabelLang.reaches_next continues.tail.head rfl) ?_
        exact LabelLang.reaches_next continues.tail.tail.head rfl
      refine body_reached located.tail.tail.tail.head ?_ ?_ ?_
      · intro _
        exact .after (advances _) (ih _ _)
      · rw [LabelLang.offset_pieceAt distinct continues rfl]
        exact .after (advances _) (ih _ _)
      · intro after
        rw [LabelLang.offset_pieceAt distinct rest.right rfl]
        rw [length_append, ← Nat.add_assoc] at isEnd
        exact exitCode_reaches rest.right isEnd
    · rw [if_neg before, if_neg before]
      exact elseCode_reached distinct rest isEnd

theorem labels_compileArg (arg : Arg) (event : Event) (rest : List Instr) :
    (machine config env).labels (compileArg arg event :: rest) =
      (machine config env).labels rest := by
  cases arg with
  | const value => rfl
  | expr => rfl

theorem labels_entryCode (start stop : Arg) :
    (machine config env).labels (entryCode config start stop entryLabel) = [] := by
  unfold entryCode
  split_ifs
  · exact labels_compileArg start .start [.jump entryLabel]
  · exact (labels_compileArg stop .stop _).trans (labels_compileArg start .start [.jump entryLabel])

theorem labels_testCode :
    (machine config env).labels (testCode config stop step topLabel) = [] := by
  unfold testCode
  split_ifs
  · exact labels_compileArg stop .stop [.less, .popJumpIf true topLabel]
  · exact labels_compileArg stop .stop [.more, .popJumpIf true topLabel]
  · rfl
  · rfl

theorem labels_discardCode : (machine config env).labels (discardCode config stop) = [] := by
  unfold discardCode
  split_ifs <;> rfl

theorem labels_elseCode :
    (machine config env).labels (elseCode config stop hasElse endLabel) = [] := by
  cases hasElse with
  | false => rfl
  | true =>
    rw [elseCode, if_pos rfl, LabelLang.labels_append, labels_discardCode]
    rfl

theorem labels_exitCode :
    (machine config env).labels (exitCode config stop hasElse breakLabel endLabel) =
      breakLabel :: if hasElse then [endLabel] else [] := by
  have behind : (machine config env).labels (discardCode config stop ++
      if hasElse then [.labelAssign endLabel] else []) = if hasElse then [endLabel] else [] := by
    rw [LabelLang.labels_append, labels_discardCode]
    cases hasElse <;> rfl
  exact congrArg (breakLabel :: ·) behind

theorem compileForStmtOptimisedRange_distinct (config : NumConfig) (env : Env) (start stop : Arg)
    (step : Int) (hasElse : Bool) (next : Nat) :
    ((machine config env).labels
      (compileForStmtOptimisedRange config start stop step hasElse next)).Nodup := by
  have round : (machine config env).labels
      (roundCode step next (next + 1) (next + 2) (next + 3)) = [next + 2, next + 1, next + 3] := rfl
  rw [compileForStmtOptimisedRange, LabelLang.labels_append, LabelLang.labels_append,
    LabelLang.labels_append, LabelLang.labels_append, labels_entryCode, round, labels_testCode,
    labels_elseCode, labels_exitCode]
  cases hasElse <;> simp

theorem entryCode_reaches {start stop : Arg}
    (located : PieceAt code pc (entryCode config start stop entryLabel)) :
    (machine config env).Reaches code (.running pc ⟨stack, ran⟩)
      (.running ((machine config env).offset code entryLabel)
        ⟨counters config stop (evalArg env stop .stop ran).1
            (evalArg env start .start (evalArg env stop .stop ran).2).1 ++ stack,
          (evalArg env start .start (evalArg env stop .stop ran).2).2⟩) := by
  unfold entryCode at located
  by_cases isSmall : isSmallInt config stop = true
  · have isSame : (evalArg env stop .stop ran).2 = ran := by
      cases stop with
      | const value => rfl
      | expr => cases isSmall
    rw [if_pos isSmall] at located
    rw [counters, if_pos isSmall, isSame]
    refine .trans (compileArg_reaches located.head) ?_
    exact LabelLang.reaches_jump located.tail.head rfl
  · rw [if_neg isSmall] at located
    rw [counters, if_neg isSmall]
    refine .trans (compileArg_reaches located.head) ?_
    refine .trans (compileArg_reaches located.tail.head) ?_
    exact LabelLang.reaches_jump located.tail.tail.head rfl

theorem compileForStmtOptimisedRange_reached {start stop : Arg} (nonzero : step ≠ 0) (next : Nat)
    (rounds : Nat) (ran : Ran) :
    (endFirstLoop env hasElse start stop step rounds ran).Reached config env
      (compileForStmtOptimisedRange config start stop step hasElse next) stack
      (.running 0 ⟨stack, ran⟩) := by
  have distinct := compileForStmtOptimisedRange_distinct config env start stop step hasElse next
  have located := pieceAt_whole (compileForStmtOptimisedRange config start stop step hasElse next)
  have isLast : IsLast config stop (evalArg env stop .stop ran).1 := by
    intro isSmall
    cases stop with
    | const value => rfl
    | expr => cases isSmall
  refine .after (entryCode_reaches located.left) ?_
  refine rounds_reached distinct isLast nonzero located.right ?_ rounds _ _
  rw [Nat.zero_add, ← length_append]
  rfl

end Optimised

/-! ## The loop with an iterator -/

section Iterator

variable {breakLabel continueLabel popLabel : Nat} {returns : Bool} {args : List Arg}

theorem compileArgs_reaches {args : List (Arg × Event)}
    (located : PieceAt code pc (args.map fun arg => compileArg arg.1 arg.2)) :
    (machine config env).Reaches code (.running pc ⟨stack, ran⟩)
      (.running (pc + args.length)
        ⟨((evalArgs env args ran).1.map .int).reverse ++ stack, (evalArgs env args ran).2⟩) := by
  induction args generalizing pc stack ran with
  | nil => exact .refl _
  | cons arg args ih =>
    rw [evalArgs, map_cons, reverse_cons, append_assoc]
    rw [length_cons, Nat.add_comm args.length, ← Nat.add_assoc]
    exact .trans (compileArg_reaches located.head) (ih located.tail)

theorem intsOf_map (values : List Int) : intsOf (values.map .int) = some values := by
  induction values with
  | nil => rfl
  | cons value values ih =>
    rw [map_cons, intsOf, ih, Option.map_some]

theorem length_evalArgs (args : List (Arg × Event)) (ran : Ran) :
    (evalArgs env args ran).1.length = args.length := by
  induction args generalizing ran with
  | nil => rfl
  | cons arg args ih => exact congrArg (· + 1) (ih _)

theorem length_argEvents (few : args.length ≤ 3) : (argEvents args).length = args.length := by
  rw [argEvents, length_zip]
  split_ifs with isOne
  · rw [isOne]
    rfl
  · exact Nat.min_eq_left few

theorem popLabel_reached
    (located : PieceAt code pc (.labelAssign popLabel :: ((if hasElse then [.otherwise] else []) ++
      [.labelAssign breakLabel])))
    (isEnd : pc + (.labelAssign popLabel :: ((if hasElse then [.otherwise] else []) ++
      [.labelAssign breakLabel]) : List Instr).length = code.length) :
    (runElse env hasElse ran).Reached config env code stack (.running pc ⟨stack, ran⟩) := by
  refine .after (LabelLang.reaches_next located.head rfl) ?_
  cases hasElse with
  | false =>
    have passes : PieceAt code (pc + 1) [.labelAssign breakLabel] := located.tail
    have isEnd : pc + 1 + 1 = code.length := isEnd
    change (machine config env).Reaches code _ (.running code.length ⟨stack, ran⟩)
    rw [← isEnd]
    exact LabelLang.reaches_next passes.head rfl
  | true =>
    have passes : PieceAt code (pc + 1) [.otherwise, .labelAssign breakLabel] := located.tail
    have isEnd : pc + 1 + 1 + 1 = code.length := isEnd
    refine otherwise_reached passes.head ?_
    intro after
    rw [← isEnd]
    exact LabelLang.reaches_next passes.tail.head rfl

/-- The rounds of the loop from its iterator on. -/
theorem iterRounds_reached (distinct : ((machine config env).labels code).Nodup)
    (noFall : returns = true → ∀ ran, env.exit ran .body ≠ .fall)
    (located : PieceAt code pc (iterCode hasElse returns breakLabel continueLabel popLabel))
    (isEnd : pc + (iterCode hasElse returns breakLabel continueLabel popLabel).length = code.length)
    (rounds : Nat) (o : MpRange) (ran : Ran) :
    (forLoop env hasElse (rangeItIternext config) rounds o ran).Reached config env code stack
      (.running ((machine config env).offset code continueLabel) ⟨.iterator o :: stack, ran⟩) := by
  have rest := located.right.right
  rw [iterCode, length_append, length_append, ← Nat.add_assoc, ← Nat.add_assoc] at isEnd
  induction rounds generalizing o ran with
  | zero => exact ⟨_, [.iterator o], .refl _⟩
  | succ rounds ih =>
    have takes : run config env (.forIter popLabel) ⟨.iterator o :: stack, ran⟩ =
        some (takeNext config o popLabel stack ran) := rfl
    rw [LabelLang.offset_pieceAt distinct located rfl]
    refine .after (LabelLang.reaches_next located.head rfl) ?_
    rw [forLoop]
    unfold takeNext at takes
    cases isNext : rangeItIternext config o with
    | none =>
      rw [isNext] at takes
      refine .after (LabelLang.reaches_jump located.tail.head takes) ?_
      rw [LabelLang.offset_pieceAt distinct rest rfl]
      exact popLabel_reached rest isEnd
    | some next =>
      obtain ⟨value, later⟩ := next
      rw [isNext] at takes
      refine .after (LabelLang.reaches_next located.tail.head takes) ?_
      refine .after (LabelLang.reaches_next located.tail.tail.head rfl) ?_
      refine body_reached located.tail.tail.tail.head ?_ ?_ ?_
      · intro isFall
        cases returns with
        | true => exact absurd isFall (noFall rfl _)
        | false =>
          have jumps : PieceAt code (pc + 1 + 1 + 1 + 1) [.jump continueLabel] :=
            located.right.left
          refine .after (LabelLang.reaches_jump jumps.head rfl) ?_
          exact ih later _
      · exact ih later _
      · intro after
        have isBreak := LabelLang.offset_pieceAt distinct rest.tail.right rfl
        have isBehind : (machine config env).offset code breakLabel + 1 = code.length := by
          rw [isBreak, ← isEnd]
          simp only [length_cons, length_append, length_nil]
          omega
        rw [← isBehind, isBreak]
        exact LabelLang.reaches_next rest.tail.right.head rfl

theorem labels_compileArgs (args : List (Arg × Event)) :
    (machine config env).labels (args.map fun arg => compileArg arg.1 arg.2) = [] := by
  induction args with
  | nil => rfl
  | cons arg args ih =>
    exact (labels_compileArg arg.1 arg.2 _).trans ih

theorem compileForStmtIter_distinct (config : NumConfig) (env : Env) (args : List Arg)
    (hasElse returns : Bool) (next : Nat) :
    ((machine config env).labels (compileForStmtIter args hasElse returns next)).Nodup := by
  have behind : (machine config env).labels (.callRange args.length :: .getIter ::
      iterCode hasElse returns next (next + 1) (next + 2)) = [next + 1, next + 2, next] := by
    cases hasElse <;> cases returns <;> rfl
  rw [compileForStmtIter, LabelLang.labels_append, labels_compileArgs, behind]
  simp

/-- The loop with an iterator runs the loop in a range object. -/
theorem compileForStmtIter_reached (few : args.length ≤ 3)
    (noFall : returns = true → ∀ ran, env.exit ran .body ≠ .fall) (next rounds : Nat) (ran : Ran) :
    (rangeLoop config env hasElse args rounds ran).Reached config env
      (compileForStmtIter args hasElse returns next) stack (.running 0 ⟨stack, ran⟩) := by
  have distinct := compileForStmtIter_distinct config env args hasElse returns next
  have located := pieceAt_whole (compileForStmtIter args hasElse returns next)
  have behind := located.right
  rw [length_map, length_argEvents few] at behind
  refine .after (compileArgs_reaches located.left) ?_
  rw [length_argEvents few, rangeLoop]
  have length := @length_evalArgs env (argEvents args) ran
  rw [length_argEvents few] at length
  generalize evalArgs env (argEvents args) ran = evaluated at *
  obtain ⟨values, ran⟩ := evaluated
  have calls : run config env (.callRange args.length) ⟨(values.map .int).reverse ++ stack, ran⟩ =
      some (callRange config values stack ran) := by
    have pushed : ((values.map Slot.int).reverse).length = args.length := by
      rw [length_reverse, length_map, length]
    have popped : intsOf (List.take args.length ((values.map .int).reverse ++ stack)).reverse =
        some values := by
      rw [take_left' pushed, reverse_reverse, intsOf_map]
    have left : List.drop args.length ((values.map .int).reverse ++ stack) = stack :=
      drop_left' pushed
    rw [run, popped, left]
    rfl
  unfold callRange at calls
  cases isMade : rangeMakeNew config values with
  | error error =>
    rw [isMade] at calls
    exact LabelLang.reaches_halt behind.head calls
  | ok o =>
    rw [isMade] at calls
    refine .after (LabelLang.reaches_next behind.head calls) ?_
    refine .after (LabelLang.reaches_next behind.tail.head rfl) ?_
    rw [← LabelLang.offset_pieceAt distinct behind.tail.tail rfl]
    refine iterRounds_reached distinct noFall behind.tail.tail ?_ rounds o ran
    rw [compileForStmtIter, length_append, length_map, length_argEvents few,
      length_cons, length_cons]
    omega

end Iterator

end MultiPython.Compile.ForRange
