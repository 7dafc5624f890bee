import MultiPython.Compile.Condition
import MultiPython.Obj.Range

/-!
# Loops in a range

`compile_for_stmt` and `compile_for_stmt_optimised_range` of `py/compile.c`: the code of a `for`
statement with a call of `range`, once with an iterator on the stack and once with a counter there.
The arguments that are not constants, the body and the `else` block are instructions here. What
they do depends on everything that was run before.
-/

namespace MultiPython.Compile.ForRange

open Logic MultiPython.Num MultiPython.Obj

/-- What is run: the evaluation of an argument, an assignment to the loop variable, the body, and
the `else` block. -/
inductive Event where
  | start
  | stop
  | step
  | store (value : Int)
  | body
  | otherwise
deriving DecidableEq

/-- What was run, and the loop variable. -/
structure Ran where
  loopVar : Option Int
  trace : List Event
deriving DecidableEq

/-- What is run next: the value of an argument, the loop variable behind it, and how a block
ends. -/
structure Env where
  value : Ran → Event → Int
  loopVar : Ran → Event → Option Int
  exit : Ran → Event → Exit

/-- What was run with an argument or a block. -/
def Ran.after (env : Env) (ran : Ran) (event : Event) : Ran :=
  ⟨env.loopVar ran event, ran.trace ++ [event]⟩

/-- Assign to the loop variable. -/
def Ran.store (ran : Ran) (value : Int) : Ran := ⟨some value, ran.trace ++ [.store value]⟩

/-- An argument: an integer constant, or an expression. -/
inductive Arg where
  | const (value : Int)
  | expr
deriving DecidableEq

/-- An argument in the call: a plain one, or one with a star, two stars or a keyword. -/
inductive CallArg where
  | plain (arg : Arg)
  | special

/-! ## The code -/

/-- The instructions; an argument and a block are one each. A body has the labels of its loop, and
whether the iterator of the loop is popped by a `break`. -/
inductive Instr where
  | arg (event : Event)
  | loadConst (value : Int)
  | jump (label : Nat)
  | popJumpIf (cond : Bool) (label : Nat)
  | labelAssign (label : Nat)
  | dupTop
  | dupTopTwo
  | rotTwo
  | popTop
  | storeVar
  | inplaceAdd
  | less
  | more
  | body (breakLabel continueLabel : Nat) (breakFromFor : Bool)
  | otherwise
  | callRange (nArgs : Nat)
  | getIter
  | forIter (label : Nat)

section Code

variable (config : NumConfig)

/-- `MP_PARSE_NODE_IS_SMALL_INT`. -/
def isSmallInt : Arg → Bool
  | .const value => config.SmallIntFits value
  | .expr => false

/-- The arguments of a plain call. -/
def standardArgs (start stop : CallArg) (step : Int) : Option (Arg × Arg × Int) :=
  match start, stop with
  | .plain start, .plain stop => some (start, stop, step)
  | _, _ => none

/-- The choice of `compile_for_stmt`: the start, the end and the step of a loop that it
optimises. -/
def rangeArgs : List CallArg → Option (Arg × Arg × Int)
  | [stop] => standardArgs (.plain (.const 0)) stop 1
  | [start, stop] => standardArgs start stop 1
  | [start, stop, .plain (.const step)] =>
    if ¬ isSmallInt config (.const step) ∨ step = 0 then none else standardArgs start stop step
  | _ => none

/-- `compile_node` of an argument. -/
def compileArg : Arg → Event → Instr
  | .const value, _ => .loadConst value
  | .expr, event => .arg event

/-- The code of the optimised loop up to the first jump. -/
def entryCode (start stop : Arg) (entryLabel : Nat) : List Instr :=
  (if isSmallInt config stop then [] else [compileArg stop .stop]) ++
    [compileArg start .start, .jump entryLabel]

/-- The code of a round of the optimised loop up to the test. -/
def roundCode (step : Int) (breakLabel continueLabel topLabel entryLabel : Nat) : List Instr :=
  [.labelAssign topLabel, .dupTop, .storeVar, .body breakLabel continueLabel false,
    .labelAssign continueLabel, .loadConst step, .inplaceAdd, .labelAssign entryLabel]

/-- The code of the test of the optimised loop. -/
def testCode (stop : Arg) (step : Int) (topLabel : Nat) : List Instr :=
  (if isSmallInt config stop then [.dupTop, compileArg stop .stop] else [.dupTopTwo, .rotTwo]) ++
    [if step ≥ 0 then .less else .more, .popJumpIf true topLabel]

/-- The code that discards the counter, and the end if it is on the stack. -/
def discardCode (stop : Arg) : List Instr :=
  .popTop :: if isSmallInt config stop then [] else [.popTop]

/-- The code of the `else` block of the optimised loop. -/
def elseCode (stop : Arg) (hasElse : Bool) (endLabel : Nat) : List Instr :=
  if hasElse then discardCode config stop ++ [.otherwise, .jump endLabel] else []

/-- The code of the optimised loop where a `break` goes. -/
def exitCode (stop : Arg) (hasElse : Bool) (breakLabel endLabel : Nat) : List Instr :=
  .labelAssign breakLabel ::
    (discardCode config stop ++ if hasElse then [.labelAssign endLabel] else [])

def compileForStmtOptimisedRange (start stop : Arg) (step : Int) (hasElse : Bool) (next : Nat) :
    List Instr :=
  let breakLabel := next
  let continueLabel := next + 1
  let topLabel := next + 2
  let entryLabel := next + 3
  let endLabel := next + 4
  entryCode config start stop entryLabel ++
    (roundCode step breakLabel continueLabel topLabel entryLabel ++
      (testCode config stop step topLabel ++
        (elseCode config stop hasElse endLabel ++
          exitCode config stop hasElse breakLabel endLabel)))

/-- The evaluation of the arguments. -/
def argEvents (args : List Arg) : List (Arg × Event) :=
  args.zip (if args.length = 1 then [.stop] else [.start, .stop, .step])

/-- The code behind the body of the loop with an iterator, which is not reached if the body ends
with a `return`. -/
def againCode (returns : Bool) (continueLabel : Nat) : List Instr :=
  if returns then [] else [.jump continueLabel]

/-- The code of the loop with an iterator. -/
def iterCode (hasElse returns : Bool) (breakLabel continueLabel popLabel : Nat) : List Instr :=
  [.labelAssign continueLabel, .forIter popLabel, .storeVar, .body breakLabel continueLabel true] ++
    (againCode returns continueLabel ++
      (.labelAssign popLabel :: ((if hasElse then [.otherwise] else []) ++
        [.labelAssign breakLabel])))

/-- The code that `compile_for_stmt` emits if it does not optimise. -/
def compileForStmtIter (args : List Arg) (hasElse returns : Bool) (next : Nat) : List Instr :=
  let breakLabel := next
  let continueLabel := next + 1
  let popLabel := next + 2
  ((argEvents args).map fun arg => compileArg arg.1 arg.2) ++
    (.callRange args.length :: .getIter ::
      iterCode hasElse returns breakLabel continueLabel popLabel)

end Code

/-! ## Running the code -/

/-- A value on the stack. -/
inductive Slot where
  | int (value : Int)
  | bool (value : Bool)
  | range (o : MpRange)
  | iterator (o : MpRange)

/-- The stack and what was run. -/
structure Frame where
  stack : List Slot
  ran : Ran

/-- The end of a run that does not reach the end of the code. -/
inductive Halt where
  | raised (error : SliceError) (ran : Ran)
  | left (exit : Exit) (ran : Ran)
deriving DecidableEq

/-- The integers in slots. -/
def intsOf : List Slot → Option (List Int)
  | [] => some []
  | .int value :: slots => (intsOf slots).map (value :: ·)
  | _ => none

section Machine

variable (config : NumConfig) (env : Env)

/-- Go on after a body. -/
def leaveBody (exit : Exit) (breakLabel continueLabel : Nat) (breakFromFor : Bool)
    (stack : List Slot) (ran : Ran) : Effect Frame Halt :=
  match exit with
  | .fall => .next ⟨stack, ran⟩
  | .breaks => .jump breakLabel ⟨if breakFromFor then stack.tail else stack, ran⟩
  | .continues => .jump continueLabel ⟨stack, ran⟩
  | .leaves => .halt (.left .leaves ran)

/-- Go on after an `else` block. -/
def leaveElse (exit : Exit) (stack : List Slot) (ran : Ran) : Effect Frame Halt :=
  match exit with
  | .fall => .next ⟨stack, ran⟩
  | exit => .halt (.left exit ran)

/-- Call `range`. -/
def callRange (values : List Int) (stack : List Slot) (ran : Ran) : Effect Frame Halt :=
  match rangeMakeNew config values with
  | .ok o => .next ⟨.range o :: stack, ran⟩
  | .error error => .halt (.raised error ran)

/-- Take the next integer of an iterator. -/
def takeNext (o : MpRange) (label : Nat) (stack : List Slot) (ran : Ran) : Effect Frame Halt :=
  match rangeItIternext config o with
  | some (value, o) => .next ⟨.int value :: .iterator o :: stack, ran⟩
  | none => .jump label ⟨stack, ran⟩

/-- What an instruction does. -/
def run : Instr → Frame → Option (Effect Frame Halt)
  | .arg event, ⟨stack, ran⟩ =>
    some (.next ⟨.int (env.value ran event) :: stack, ran.after env event⟩)
  | .loadConst value, ⟨stack, ran⟩ => some (.next ⟨.int value :: stack, ran⟩)
  | .jump label, frame => some (.jump label frame)
  | .popJumpIf cond label, ⟨.bool value :: stack, ran⟩ =>
    some (if value = cond then .jump label ⟨stack, ran⟩ else .next ⟨stack, ran⟩)
  | .labelAssign _, frame => some (.next frame)
  | .dupTop, ⟨top :: stack, ran⟩ => some (.next ⟨top :: top :: stack, ran⟩)
  | .dupTopTwo, ⟨top :: second :: stack, ran⟩ =>
    some (.next ⟨top :: second :: top :: second :: stack, ran⟩)
  | .rotTwo, ⟨top :: second :: stack, ran⟩ => some (.next ⟨second :: top :: stack, ran⟩)
  | .popTop, ⟨_ :: stack, ran⟩ => some (.next ⟨stack, ran⟩)
  | .storeVar, ⟨.int value :: stack, ran⟩ => some (.next ⟨stack, ran.store value⟩)
  | .inplaceAdd, ⟨.int rhs :: .int lhs :: stack, ran⟩ =>
    some (.next ⟨.int (lhs + rhs) :: stack, ran⟩)
  | .less, ⟨.int rhs :: .int lhs :: stack, ran⟩ =>
    some (.next ⟨.bool (lhs < rhs) :: stack, ran⟩)
  | .more, ⟨.int rhs :: .int lhs :: stack, ran⟩ =>
    some (.next ⟨.bool (lhs > rhs) :: stack, ran⟩)
  | .body breakLabel continueLabel breakFromFor, ⟨stack, ran⟩ =>
    some (leaveBody (env.exit ran .body) breakLabel continueLabel breakFromFor stack
      (ran.after env .body))
  | .otherwise, ⟨stack, ran⟩ =>
    some (leaveElse (env.exit ran .otherwise) stack (ran.after env .otherwise))
  | .callRange nArgs, ⟨stack, ran⟩ =>
    (intsOf (stack.take nArgs).reverse).map fun values =>
      callRange config values (stack.drop nArgs) ran
  | .getIter, ⟨.range o :: stack, ran⟩ => some (.next ⟨.iterator o :: stack, ran⟩)
  | .forIter label, ⟨.iterator o :: stack, ran⟩ => some (takeNext config o label stack ran)
  | _, _ => none

/-- The label that an instruction assigns. -/
def assigned : Instr → Option Nat
  | .labelAssign label => some label
  | _ => none

/-- The virtual machine. -/
def machine : LabelLang Instr Frame Halt where
  assigned := assigned
  run := run config env

end Machine

/-! ## The loops -/

/-- What a loop does: it comes to its end, or is left, or the rounds are used up. -/
inductive Progress where
  | looping (ran : Ran)
  | finished (ran : Ran)
  | halted (halt : Halt)
deriving DecidableEq

section Loops

variable (config : NumConfig) (env : Env) (hasElse : Bool) {σ : Type}

/-- Run the body, and go on with the loop. -/
def runBody (again : Ran → Progress) (ran : Ran) : Progress :=
  match env.exit ran .body with
  | .fall => again (ran.after env .body)
  | .breaks => .finished (ran.after env .body)
  | .continues => again (ran.after env .body)
  | .leaves => .halted (.left .leaves (ran.after env .body))

/-- Run the `else` block if there is one. -/
def runElse (ran : Ran) : Progress :=
  if hasElse then
    match env.exit ran .otherwise with
    | .fall => .finished (ran.after env .otherwise)
    | exit => .halted (.left exit (ran.after env .otherwise))
  else .finished ran

/-- A number of rounds of a loop, whose integers are taken one after the other. -/
def forLoop (taken : σ → Option (Int × σ)) : Nat → σ → Ran → Progress
  | 0, _, ran => .looping ran
  | rounds + 1, state, ran =>
    (taken state).elim (runElse env hasElse ran) fun next =>
      runBody env (forLoop taken rounds next.2) (ran.store next.1)

/-- Take the integers from a counter on that are before the end. -/
def countNext (stop step : Int) (counter : Int) : Option (Int × Int) :=
  if Before step counter stop then some (counter, counter + step) else none

/-- Evaluate an argument. -/
def evalArg (arg : Arg) (event : Event) (ran : Ran) : Int × Ran :=
  match arg with
  | .const value => (value, ran)
  | .expr => (env.value ran event, ran.after env event)

/-- Evaluate arguments. -/
def evalArgs : List (Arg × Event) → Ran → List Int × Ran
  | [], ran => ([], ran)
  | arg :: args, ran =>
    let evaluated := evalArg env arg.1 arg.2 ran
    let others := evalArgs args evaluated.2
    (evaluated.1 :: others.1, others.2)

/-- The loop in a range object. -/
def rangeLoop (args : List Arg) (rounds : Nat) (ran : Ran) : Progress :=
  let evaluated := evalArgs env (argEvents args) ran
  match rangeMakeNew config evaluated.1 with
  | .ok o => forLoop env hasElse (rangeItIternext config) rounds o evaluated.2
  | .error error => .halted (.raised error evaluated.2)

/-- The loop in integers of any size. -/
def pythonLoop (start stop : Arg) (step : Int) (rounds : Nat) (ran : Ran) : Progress :=
  let first := evalArg env start .start ran
  let last := evalArg env stop .stop first.2
  forLoop env hasElse (countNext last.1 step) rounds first.1 last.2

/-- The loop in integers of any size, with the end evaluated before the start. -/
def endFirstLoop (start stop : Arg) (step : Int) (rounds : Nat) (ran : Ran) : Progress :=
  let last := evalArg env stop .stop ran
  let first := evalArg env start .start last.2
  forLoop env hasElse (countNext last.1 step) rounds first.1 first.2

end Loops

end MultiPython.Compile.ForRange
