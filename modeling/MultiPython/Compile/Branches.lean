import MultiPython.Compile.Statements

/-!
# The branch that is taken

The code of a condition, an `if` or a `while` runs what Python runs and takes the branch that Python
takes, if and only if Python runs no element of a parenthesised tuple: such a tuple is not compiled.
-/

namespace MultiPython.Compile

open Logic

variable {ι : Type}

/-- What was run by a statement. -/
def Progress.trace : Progress ι → List (Event ι)
  | .looping trace => trace
  | .finished trace => trace
  | .halted halt => halt.trace

/-! ## Elements of tuples that are run by statements -/

section Items

variable (env : Env ι) {trace : List (Event ι)}

theorem runBlock_itemsRun (block : Block ι) (trace : List (Event ι)) :
    itemsRun (runBlock env block trace).trace = itemsRun trace := by
  have ran : itemsRun (trace ++ [.block block.name]) = itemsRun trace := itemsRun_append trace _
  unfold runBlock
  split <;> exact ran

theorem runElse_itemsRun (elseBlock : Option (Block ι)) (trace : List (Event ι)) :
    itemsRun (runElse env elseBlock trace).trace = itemsRun trace := by
  cases elseBlock with
  | none => rfl
  | some block => exact runBlock_itemsRun env block trace

variable {isTrue isFalse skipTrue skipFalse : List (Event ι) → Progress ι}

theorem branchOn_grows (tested : Tested ι)
    (growsTrue : ∀ trace, itemsRun trace ≤ itemsRun (isTrue trace).trace)
    (growsFalse : ∀ trace, itemsRun trace ≤ itemsRun (isFalse trace).trace) :
    itemsRun tested.1 ≤ itemsRun (branchOn tested isTrue isFalse).trace := by
  obtain ⟨trace, truth⟩ := tested
  cases truth with
  | none => exact le_rfl
  | some truth =>
    cases truth with
    | false => exact growsFalse trace
    | true => exact growsTrue trace

theorem branchOn_same (cond : Cond ι)
    (growsTrue : ∀ trace, itemsRun trace ≤ itemsRun (isTrue trace).trace)
    (growsFalse : ∀ trace, itemsRun trace ≤ itemsRun (isFalse trace).trace)
    (sameTrue : ∀ trace, itemsRun (isTrue trace).trace = itemsRun trace →
      skipTrue trace = isTrue trace)
    (sameFalse : ∀ trace, itemsRun (isFalse trace).trace = itemsRun trace →
      skipFalse trace = isFalse trace)
    (same : itemsRun (branchOn (evalCond env (evalParen env) cond trace) isTrue isFalse).trace =
      itemsRun trace) :
    branchOn (evalCond env skipParen cond trace) skipTrue skipFalse =
      branchOn (evalCond env (evalParen env) cond trace) isTrue isFalse := by
  have condGrows := evalCond_grows env cond trace
  have grows := branchOn_grows (evalCond env (evalParen env) cond trace) growsTrue growsFalse
  rw [evalCond_same env cond trace (by omega)]
  have rest : itemsRun (branchOn (evalCond env (evalParen env) cond trace) isTrue isFalse).trace =
      itemsRun (evalCond env (evalParen env) cond trace).1 := by omega
  generalize evalCond env (evalParen env) cond trace = tested at rest ⊢
  obtain ⟨after, truth⟩ := tested
  cases truth with
  | none => rfl
  | some truth =>
    cases truth with
    | false => exact sameFalse after rest
    | true => exact sameTrue after rest

theorem runIf_grows (elseBlock : Option (Block ι)) (branches : List (Cond ι × Block ι))
    (trace : List (Event ι)) :
    itemsRun trace ≤ itemsRun (runIf env (evalParen env) elseBlock branches trace).trace := by
  induction branches generalizing trace with
  | nil => exact (runElse_itemsRun env elseBlock trace).ge
  | cons branch branches ih =>
    exact (evalCond_grows env branch.1 trace).trans (branchOn_grows _
      (fun trace => (runBlock_itemsRun env branch.2 trace).ge) ih)

theorem runIf_same (elseBlock : Option (Block ι)) (branches : List (Cond ι × Block ι))
    (trace : List (Event ι))
    (same : itemsRun (runIf env (evalParen env) elseBlock branches trace).trace = itemsRun trace) :
    runIf env skipParen elseBlock branches trace =
      runIf env (evalParen env) elseBlock branches trace := by
  induction branches generalizing trace with
  | nil => rfl
  | cons branch branches ih =>
    exact branchOn_same env branch.1 (fun trace => (runBlock_itemsRun env branch.2 trace).ge)
      (runIf_grows env elseBlock branches) (fun _ _ => rfl) ih same

section Loop

variable (cond : Cond ι) (body : Block ι) (elseBlock : Option (Block ι))

theorem runBody_grows {again : List (Event ι) → Progress ι}
    (grows : ∀ trace, itemsRun trace ≤ itemsRun (again trace).trace) (trace : List (Event ι)) :
    itemsRun trace ≤ itemsRun (runBody env body again trace).trace := by
  have ran : itemsRun (trace ++ [.block body.name]) = itemsRun trace := itemsRun_append trace _
  have goesOn := grows (trace ++ [.block body.name])
  rw [ran] at goesOn
  unfold runBody
  cases env.exit trace body.name with
  | fall => exact goesOn
  | continues => exact goesOn
  | breaks => exact ran.ge
  | leaves => exact ran.ge

theorem runBody_same {again skip : List (Event ι) → Progress ι}
    (sameAgain : ∀ trace, itemsRun (again trace).trace = itemsRun trace → skip trace = again trace)
    (trace : List (Event ι))
    (same : itemsRun (runBody env body again trace).trace = itemsRun trace) :
    runBody env body skip trace = runBody env body again trace := by
  have ran : itemsRun (trace ++ [.block body.name]) = itemsRun trace := itemsRun_append trace _
  have goesOn := sameAgain (trace ++ [.block body.name])
  rw [ran] at goesOn
  unfold runBody at same ⊢
  cases isExit : env.exit trace body.name with
  | fall =>
    rw [isExit] at same
    exact goesOn same
  | continues =>
    rw [isExit] at same
    exact goesOn same
  | breaks => rfl
  | leaves => rfl

theorem runWhile_grows (rounds : Nat) (trace : List (Event ι)) :
    itemsRun trace ≤
      itemsRun (runWhile env (evalParen env) cond body elseBlock rounds trace).trace := by
  induction rounds generalizing trace with
  | zero => exact le_rfl
  | succ rounds ih =>
    exact (evalCond_grows env cond trace).trans (branchOn_grows _
      (runBody_grows env body ih)
      (fun trace => (runElse_itemsRun env elseBlock trace).ge))

theorem runWhile_same (rounds : Nat) (trace : List (Event ι))
    (same : itemsRun (runWhile env (evalParen env) cond body elseBlock rounds trace).trace =
      itemsRun trace) :
    runWhile env skipParen cond body elseBlock rounds trace =
      runWhile env (evalParen env) cond body elseBlock rounds trace := by
  induction rounds generalizing trace with
  | zero => rfl
  | succ rounds ih =>
    exact branchOn_same env cond
      (runBody_grows env body (runWhile_grows env cond body elseBlock rounds))
      (fun trace => (runElse_itemsRun env elseBlock trace).ge)
      (runBody_same env body ih) (fun _ _ => rfl) same

end Loop

/-- What a statement does can only be reached if no element of a tuple is run. -/
theorem Progress.Reached.itemsRun_eq {env : Env ι} {progress : Progress ι} {code : List (Instr ι)}
    {stack : List Bool} {finish pc : Nat} {frame : Frame ι}
    (reached : progress.Reached env code stack finish (.running pc frame)) :
    itemsRun progress.trace = itemsRun frame.trace := by
  cases progress with
  | looping trace =>
    obtain ⟨pc, reaches⟩ := reached
    exact reaches_itemsRun env reaches
  | finished trace => exact reaches_itemsRun env reached
  | halted halt => exact reaches_itemsRun env reached

end Items

/-- Of the subexpressions only `0` is true, and only block `2` does not come to its end. -/
def sampleEnv : Env Nat where
  truth _ event :=
    match event with
    | .node e => some (e == 0)
    | _ => some false
  exit _ name := if name = 2 then .leaves else .fall

/-- The condition `0 and not 1`. -/
def sampleCond : Cond Nat := .andTest (.cons (.node 0) (.last (.notTest (.node 1))))

end MultiPython.Compile
