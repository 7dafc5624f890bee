import MultiPython.Compile.TupleItems

/-!
# Statements with conditions

`compile_if_stmt` and `compile_while_stmt` of `py/compile.c`, and what Python does with an `if` and
with a `while`. The code takes the branch that Python takes, and runs the same before it, if and
only if no element of a parenthesised tuple is run by Python.
-/

namespace MultiPython.Compile

open Logic List

section Code

variable {ι : Type}

/-- The code of a block, which may be missing. -/
def compileBlock (block : Option (Block ι)) : List (Instr ι) :=
  block.elim [] fun block => [.block block.name none]

/-- The `elif` blocks and the `else` block of `compile_if_stmt`. -/
def compileElifs (lEnd : Nat) (elseBlock : Option (Block ι)) :
    List (Cond ι × Block ι) → Nat → Emitted ι
  | [], next => ⟨compileBlock elseBlock, next⟩
  | elif :: elifs, next =>
    if mpParseNodeIsConstFalse elif.1 then compileElifs lEnd elseBlock elifs next
    else
      let lFail := next
      let cond := cIfCond elif.1 false lFail next.succ
      let front := cond.code ++ [.block elif.2.name none]
      if mpParseNodeIsConstTrue elif.1 then ⟨front, cond.nextLabel⟩
      else
        let others := compileElifs lEnd elseBlock elifs cond.nextLabel
        ⟨front ++ (if elif.2.returns then [] else [.jump lEnd]) ++
          .labelAssign lFail :: others.code, others.nextLabel⟩

/-- The blocks of `compile_if_stmt`. -/
def compileIfBlocks (lEnd : Nat) (cond : Cond ι) (block : Block ι) (elifs : List (Cond ι × Block ι))
    (elseBlock : Option (Block ι)) (next : Nat) : Emitted ι :=
  if mpParseNodeIsConstFalse cond then compileElifs lEnd elseBlock elifs next
  else
    let lFail := next
    let test := cIfCond cond false lFail next.succ
    let front := test.code ++ [.block block.name none]
    if mpParseNodeIsConstTrue cond then ⟨front, test.nextLabel⟩
    else
      let others := compileElifs lEnd elseBlock elifs test.nextLabel
      ⟨front ++ (if ¬ (elifs.isEmpty ∧ elseBlock.isNone) ∧ ¬ block.returns then [.jump lEnd]
        else []) ++ .labelAssign lFail :: others.code, others.nextLabel⟩

def compileIfStmt (cond : Cond ι) (block : Block ι) (elifs : List (Cond ι × Block ι))
    (elseBlock : Option (Block ι)) (next : Nat) : Emitted ι :=
  let lEnd := next
  let blocks := compileIfBlocks lEnd cond block elifs elseBlock next.succ
  ⟨blocks.code ++ [.labelAssign lEnd], blocks.nextLabel⟩

/-- The body and the condition of `compile_while_stmt`. -/
def compileLoop (breakLabel continueLabel : Nat) (cond : Cond ι) (body : Block ι) (next : Nat) :
    Emitted ι :=
  if mpParseNodeIsConstFalse cond then ⟨[], next⟩
  else
    let topLabel := next
    let test := cIfCond cond true topLabel next.succ
    ⟨(if mpParseNodeIsConstTrue cond then [] else [.jump continueLabel]) ++
      .labelAssign topLabel :: .block body.name (some (breakLabel, continueLabel)) ::
        .labelAssign continueLabel :: test.code, test.nextLabel⟩

def compileWhileStmt (cond : Cond ι) (body : Block ι) (elseBlock : Option (Block ι)) (next : Nat) :
    Emitted ι :=
  let breakLabel := next
  let continueLabel := next.succ
  let loop := compileLoop breakLabel continueLabel cond body next.succ.succ
  ⟨loop.code ++ compileBlock elseBlock ++ [.labelAssign breakLabel], loop.nextLabel⟩

end Code

/-! ## What Python does -/

/-- What a statement does: it comes to its end, or is left, or the rounds are used up. -/
inductive Progress (ι : Type) where
  | looping (trace : List (Event ι))
  | finished (trace : List (Event ι))
  | halted (halt : Halt ι)

section Python

variable {ι : Type} (env : Env ι)

/-- Go on with the truth of a condition. -/
def branchOn (tested : Tested ι) (isTrue isFalse : List (Event ι) → Progress ι) : Progress ι :=
  match tested.2 with
  | none => .halted (.raised tested.1)
  | some true => isTrue tested.1
  | some false => isFalse tested.1

/-- Run a block that is not the body of the loop. -/
def runBlock (block : Block ι) (trace : List (Event ι)) : Progress ι :=
  match env.exit trace block.name with
  | .fall => .finished (trace ++ [.block block.name])
  | exit => .halted (.left exit (trace ++ [.block block.name]))

/-- Run a block if there is one. -/
def runElse (elseBlock : Option (Block ι)) (trace : List (Event ι)) : Progress ι :=
  elseBlock.elim (.finished trace) fun block => runBlock env block trace

/-- An `if` with its `elif`s: the block of the first condition that is true. -/
def runIf (paren : List (Option ι) → List (Event ι) → Tested ι) (elseBlock : Option (Block ι)) :
    List (Cond ι × Block ι) → List (Event ι) → Progress ι
  | [], trace => runElse env elseBlock trace
  | branch :: branches, trace =>
    branchOn (evalCond env paren branch.1 trace) (runBlock env branch.2)
      (runIf paren elseBlock branches)

/-- Run the body of a loop, and go on with the loop. -/
def runBody (body : Block ι) (again : List (Event ι) → Progress ι) (trace : List (Event ι)) :
    Progress ι :=
  let after := trace ++ [.block body.name]
  match env.exit trace body.name with
  | .fall => again after
  | .continues => again after
  | .breaks => .finished after
  | .leaves => .halted (.left .leaves after)

/-- A number of rounds of a `while`. -/
def runWhile (paren : List (Option ι) → List (Event ι) → Tested ι) (cond : Cond ι)
    (body : Block ι) (elseBlock : Option (Block ι)) : Nat → List (Event ι) → Progress ι
  | 0, trace => .looping trace
  | rounds + 1, trace =>
    branchOn (evalCond env paren cond trace)
      (runBody env body (runWhile paren cond body elseBlock rounds)) (runElse env elseBlock)

end Python

/-! ## The labels -/

section Labels

variable {ι : Type} (env : Env ι)

theorem compileBlock_fresh (block : Option (Block ι)) (next : Nat) :
    (machine env).Fresh (compileBlock block) next next := by
  cases block with
  | none => exact .none rfl le_rfl
  | some block => exact .none rfl le_rfl

variable {jump : List (Instr ι)}

theorem clause_fresh {lFail : Nat} {test others : Emitted ι} (name : ι)
    (tests : (machine env).Fresh test.code lFail.succ test.nextLabel)
    (plain : (machine env).labels jump = [])
    (rest : (machine env).Fresh others.code test.nextLabel others.nextLabel) :
    (machine env).Fresh
      (test.code ++ [.block name none] ++ jump ++ .labelAssign lFail :: others.code) lFail
      others.nextLabel := by
  have block : (machine env).Fresh [.block name none] test.nextLabel test.nextLabel :=
    .none rfl le_rfl
  have jumps : (machine env).Fresh jump test.nextLabel test.nextLabel := .none plain le_rfl
  exact LabelLang.Fresh.assign (((tests.append block).append jumps).append rest) rfl

theorem always_fresh {lFail : Nat} {test : Emitted ι} (name : ι)
    (tests : (machine env).Fresh test.code lFail.succ test.nextLabel) :
    (machine env).Fresh (test.code ++ [.block name none]) lFail test.nextLabel := by
  have block : (machine env).Fresh [.block name none] test.nextLabel test.nextLabel :=
    .none rfl le_rfl
  exact (tests.append block).mono (Nat.le_succ lFail)

theorem compileElifs_fresh (lEnd : Nat) (elseBlock : Option (Block ι))
    (elifs : List (Cond ι × Block ι)) (next : Nat) :
    (machine env).Fresh (compileElifs lEnd elseBlock elifs next).code next
      (compileElifs lEnd elseBlock elifs next).nextLabel := by
  induction elifs generalizing next with
  | nil => exact compileBlock_fresh env elseBlock next
  | cons elif elifs ih =>
    have tests := cIfCond_fresh env elif.1 false next next.succ
    rw [compileElifs]
    split_ifs
    · exact ih next
    · exact always_fresh env elif.2.name tests
    · exact clause_fresh env elif.2.name tests rfl (ih _)
    · exact clause_fresh env elif.2.name tests rfl (ih _)

theorem compileIfBlocks_fresh (lEnd : Nat) (cond : Cond ι) (block : Block ι)
    (elifs : List (Cond ι × Block ι)) (elseBlock : Option (Block ι)) (next : Nat) :
    (machine env).Fresh (compileIfBlocks lEnd cond block elifs elseBlock next).code next
      (compileIfBlocks lEnd cond block elifs elseBlock next).nextLabel := by
  have tests := cIfCond_fresh env cond false next next.succ
  have rest := compileElifs_fresh env lEnd elseBlock elifs
  rw [compileIfBlocks]
  split_ifs
  · exact rest next
  · exact always_fresh env block.name tests
  · exact clause_fresh env block.name tests rfl (rest _)
  · exact clause_fresh env block.name tests rfl (rest _)

theorem compileIfStmt_fresh (cond : Cond ι) (block : Block ι) (elifs : List (Cond ι × Block ι))
    (elseBlock : Option (Block ι)) (next : Nat) :
    (machine env).Fresh (compileIfStmt cond block elifs elseBlock next).code next
      (compileIfStmt cond block elifs elseBlock next).nextLabel := by
  refine LabelLang.Fresh.assign ?_ rfl
  rw [append_nil]
  exact compileIfBlocks_fresh env next cond block elifs elseBlock next.succ

theorem loop_fresh {next : Nat} {test : Emitted ι} (name : ι) (labels : Option (Nat × Nat))
    (plain : (machine env).labels jump = [])
    (tests : (machine env).Fresh test.code next.succ.succ test.nextLabel) :
    (machine env).Fresh (jump ++ .labelAssign next.succ :: .block name labels ::
      .labelAssign next :: test.code) next test.nextLabel := by
  have front : (machine env).Fresh (jump ++ [.block name labels]) next.succ.succ
      next.succ.succ := by
    refine .none ?_ le_rfl
    rw [LabelLang.labels_append, plain]
    rfl
  have plainCode := front.append tests
  rw [append_assoc] at plainCode
  have top : (machine env).Fresh (jump ++ .labelAssign next.succ ::
      ([.block name labels] ++ test.code)) next.succ test.nextLabel := plainCode.assign rfl
  have inFront : jump ++ .labelAssign next.succ :: ([.block name labels] ++ test.code) =
      (jump ++ [.labelAssign next.succ, .block name labels]) ++ test.code := by
    rw [append_assoc]
    rfl
  rw [inFront] at top
  have continues : (machine env).Fresh ((jump ++ [.labelAssign next.succ, .block name labels]) ++
      .labelAssign next :: test.code) next test.nextLabel := top.assign rfl
  rw [append_assoc] at continues
  exact continues

theorem compileLoop_fresh (breakLabel : Nat) (cond : Cond ι) (body : Block ι) (next : Nat) :
    (machine env).Fresh (compileLoop breakLabel next cond body next.succ).code next
      (compileLoop breakLabel next cond body next.succ).nextLabel := by
  have tests := cIfCond_fresh env cond true next.succ next.succ.succ
  rw [compileLoop]
  split_ifs
  · exact .none rfl (Nat.le_succ next)
  · exact loop_fresh env body.name _ rfl tests
  · exact loop_fresh env body.name _ rfl tests

theorem compileWhileStmt_fresh (cond : Cond ι) (body : Block ι) (elseBlock : Option (Block ι))
    (next : Nat) :
    (machine env).Fresh (compileWhileStmt cond body elseBlock next).code next
      (compileWhileStmt cond body elseBlock next).nextLabel := by
  refine LabelLang.Fresh.assign ?_ rfl
  rw [append_nil]
  exact (compileLoop_fresh env next cond body next.succ).append (compileBlock_fresh env elseBlock _)

end Labels

/-! ## Runs of the code of statements -/

section Runs

variable {ι : Type} (env : Env ι) {code : List (Instr ι)} {stack : List Bool}
  {trace : List (Event ι)} {start middle : Place (Frame ι) (Halt ι)} {finish : Nat}

/-- The machine comes to what a statement does; `finish` is the place behind the statement. -/
def Progress.Reached (code : List (Instr ι)) (stack : List Bool) (finish : Nat)
    (start : Place (Frame ι) (Halt ι)) : Progress ι → Prop
  | .looping trace => ∃ pc, (machine env).Reaches code start (.running pc ⟨stack, trace⟩)
  | .finished trace => (machine env).Reaches code start (.running finish ⟨stack, trace⟩)
  | .halted halt => (machine env).Reaches code start (.halted halt)

/-- A block that ends with a return does not come to its end. -/
def Block.NoFall (block : Block ι) : Prop :=
  block.returns = true → ∀ trace, env.exit trace block.name ≠ .fall

variable {env} {progress : Progress ι}

theorem Progress.Reached.after (reaches : (machine env).Reaches code start middle)
    (reached : progress.Reached env code stack finish middle) :
    progress.Reached env code stack finish start := by
  cases progress with
  | looping trace =>
    obtain ⟨pc, later⟩ := reached
    exact ⟨pc, reaches.trans later⟩
  | finished trace => exact reaches.trans reached
  | halted halt => exact reaches.trans reached

theorem Progress.Reached.followed {further : Nat}
    (reached : progress.Reached env code stack finish start)
    (follows : ∀ trace, (machine env).Reaches code (.running finish ⟨stack, trace⟩)
      (.running further ⟨stack, trace⟩)) : progress.Reached env code stack further start := by
  cases progress with
  | looping trace => exact reached
  | finished trace => exact .trans reached (follows trace)
  | halted halt => exact reached

theorem branchOn_reached {behind label : Nat} {jumpIf : Bool} {tested : Tested ι}
    {isTrue isFalse : List (Event ι) → Progress ι}
    (jumps : ∀ trace, ((if jumpIf then isTrue else isFalse) trace).Reached env code stack finish
      (.running ((machine env).offset code label) ⟨stack, trace⟩))
    (goesOn : ∀ trace, ((if jumpIf then isFalse else isTrue) trace).Reached env code stack finish
      (.running behind ⟨stack, trace⟩)) :
    (branchOn tested isTrue isFalse).Reached env code stack finish
      (condPlace env code behind jumpIf label stack tested) := by
  obtain ⟨trace, truth⟩ := tested
  cases truth with
  | none => exact .refl _
  | some truth =>
    have jumpsHere := jumps trace
    have goesHere := goesOn trace
    cases truth <;> cases jumpIf <;> assumption

variable {block : Block ι}

theorem block_reached {pc : Nat} (located : PieceAt code pc [.block block.name none])
    (falls : env.exit trace block.name = .fall → (machine env).Reaches code
      (.running (pc + 1) ⟨stack, trace ++ [.block block.name]⟩)
      (.running finish ⟨stack, trace ++ [.block block.name]⟩)) :
    (runBlock env block trace).Reached env code stack finish (.running pc ⟨stack, trace⟩) := by
  have runs : run env (.block block.name none) ⟨stack, trace⟩ =
      some (leave (env.exit trace block.name) none ⟨stack, trace ++ [.block block.name]⟩) := rfl
  unfold runBlock
  cases isExit : env.exit trace block.name with
  | fall =>
    rw [isExit] at runs
    exact .trans (LabelLang.reaches_next located.head runs) (falls isExit)
  | breaks =>
    rw [isExit] at runs
    exact LabelLang.reaches_halt located.head runs
  | continues =>
    rw [isExit] at runs
    exact LabelLang.reaches_halt located.head runs
  | leaves =>
    rw [isExit] at runs
    exact LabelLang.reaches_halt located.head runs

theorem compileBlock_reached {pc : Nat} {block : Option (Block ι)}
    (located : PieceAt code pc (compileBlock block))
    (isFinish : pc + (compileBlock block).length = finish) :
    (runElse env block trace).Reached env code stack finish (.running pc ⟨stack, trace⟩) := by
  cases block with
  | none =>
    rw [← isFinish]
    exact .refl _
  | some block =>
    refine block_reached located ?_
    intro _
    rw [← isFinish]
    exact .refl _

variable {cond : Cond ι}

theorem constTrue_tested (isTrue : mpParseNodeIsConstTrue cond = true)
    (paren : List (Option ι) → List (Event ι) → Tested ι) (trace : List (Event ι)) :
    evalCond env paren cond trace = (trace, some true) := by
  cases cond with
  | const leaf =>
    cases leaf with
    | kwFalse => cases isTrue
    | kwTrue => rfl
    | smallInt value => exact congrArg (fun truth => (trace, some truth)) isTrue
  | node e => cases isTrue
  | notTest cond => cases isTrue
  | andTest nodes => cases isTrue
  | orTest nodes => cases isTrue
  | atomParen items => cases isTrue

theorem constFalse_tested (isFalse : mpParseNodeIsConstFalse cond = true)
    (paren : List (Option ι) → List (Event ι) → Tested ι) (trace : List (Event ι)) :
    evalCond env paren cond trace = (trace, some false) := by
  cases cond with
  | const leaf =>
    cases leaf with
    | kwFalse => rfl
    | kwTrue => cases isFalse
    | smallInt value =>
      have isZero : value = 0 := beq_iff_eq.mp isFalse
      subst isZero
      rfl
  | node e => cases isFalse
  | notTest cond => cases isFalse
  | andTest nodes => cases isFalse
  | orTest nodes => cases isFalse
  | atomParen items => cases isFalse

theorem length_behind (pc : Nat) (before behind : List (Instr ι)) (instr : Instr ι) :
    pc + (before ++ instr :: behind).length = pc + before.length + 1 + behind.length := by
  rw [length_append, length_cons]
  omega

variable {lFail next pc : Nat} {rest : List (Event ι) → Progress ι}

theorem clause_reached (distinct : ((machine env).labels code).Nodup) {jump others : List (Instr ι)}
    (located : PieceAt code pc ((cIfCond cond false lFail next).code ++ [.block block.name none] ++
      jump ++ .labelAssign lFail :: others))
    (falls : ∀ tested after, env.exit tested block.name = .fall → (machine env).Reaches code
      (.running (pc + ((cIfCond cond false lFail next).code ++
        [Instr.block block.name none]).length) ⟨stack, after⟩) (.running finish ⟨stack, after⟩))
    (fails : ∀ trace, (rest trace).Reached env code stack finish
      (.running (pc + ((cIfCond cond false lFail next).code ++ [Instr.block block.name none] ++
        jump).length + 1) ⟨stack, trace⟩)) :
    (branchOn (evalCond env skipParen cond trace) (runBlock env block) rest).Reached env code stack
      finish (.running pc ⟨stack, trace⟩) := by
  have front := located.left.left
  have tests := @cIfCond_runs ι env code stack distinct cond false lFail next pc trace front.left
  refine .after tests (branchOn_reached ?_ ?_)
  · intro after
    have isPlace := LabelLang.offset_pieceAt distinct located.right rfl
    rw [isPlace]
    exact .after (LabelLang.reaches_next located.right.head rfl) (fails after)
  · intro after
    refine block_reached front.right ?_
    intro isFall
    have isEnd := falls after (after ++ [.block block.name]) isFall
    rw [length_append, ← Nat.add_assoc] at isEnd
    exact isEnd

theorem always_reached (distinct : ((machine env).labels code).Nodup)
    (isTrue : mpParseNodeIsConstTrue cond = true)
    (located : PieceAt code pc ((cIfCond cond false lFail next).code ++ [.block block.name none]))
    (isFinish : pc + ((cIfCond cond false lFail next).code ++
      [Instr.block block.name none]).length = finish) :
    (branchOn (evalCond env skipParen cond trace) (runBlock env block) rest).Reached env code stack
      finish (.running pc ⟨stack, trace⟩) := by
  have tests := @cIfCond_runs ι env code stack distinct cond false lFail next pc trace
    located.left
  rw [constTrue_tested isTrue] at tests ⊢
  refine .after tests (block_reached located.right ?_)
  intro _
  rw [← isFinish, length_append, ← Nat.add_assoc]
  exact .refl _

variable {elseBlock : Option (Block ι)} {elifs : List (Cond ι × Block ι)}

theorem compileElifs_reached (distinct : ((machine env).labels code).Nodup) {lEnd : Nat}
    {next pc : Nat} (noFall : ∀ elif ∈ elifs, elif.2.NoFall env)
    (located : PieceAt code pc (compileElifs lEnd elseBlock elifs next).code)
    (isFinish : pc + (compileElifs lEnd elseBlock elifs next).code.length =
      (machine env).offset code lEnd) (trace : List (Event ι)) :
    (runIf env skipParen elseBlock elifs trace).Reached env code stack
      ((machine env).offset code lEnd) (.running pc ⟨stack, trace⟩) := by
  induction elifs generalizing next pc trace with
  | nil => exact compileBlock_reached located isFinish
  | cons elif elifs ih =>
    have others : ∀ other ∈ elifs, other.2.NoFall env :=
      fun other isIn => noFall other (mem_cons_of_mem _ isIn)
    rw [compileElifs] at located isFinish
    rw [runIf]
    split_ifs at located isFinish with isFalse isTrue returns
    · rw [constFalse_tested isFalse]
      exact ih others located isFinish trace
    · exact always_reached distinct isTrue located isFinish
    · refine clause_reached distinct located ?_ ?_
      · intro tested after isFall
        exact absurd isFall (noFall elif mem_cons_self returns tested)
      · exact ih others located.right.tail
          ((length_behind pc _ _ _).symm.trans isFinish)
    · refine clause_reached distinct located ?_ ?_
      · intro tested after _
        exact LabelLang.reaches_jump located.left.right.head rfl
      · exact ih others located.right.tail
          ((length_behind pc _ _ _).symm.trans isFinish)

theorem label_passes {front : List (Instr ι)} {label : Nat}
    (distinct : ((machine env).labels (front ++ [.labelAssign label])).Nodup) :
    (machine env).Reaches (front ++ [.labelAssign label])
      (.running ((machine env).offset (front ++ [.labelAssign label]) label) ⟨stack, trace⟩)
      (.running (front ++ [Instr.labelAssign label]).length ⟨stack, trace⟩) := by
  have located := pieceAt_whole (front ++ [Instr.labelAssign label])
  rw [LabelLang.offset_pieceAt distinct located.right rfl, length_append, Nat.zero_add]
  have here := located.right.head
  rw [Nat.zero_add] at here
  exact LabelLang.reaches_next here rfl

/-- The blocks of an `if`, which are followed by the end of the statement. -/
theorem compileIfBlocks_reached (distinct : ((machine env).labels code).Nodup) {lEnd : Nat}
    {next pc : Nat} (noFall : ∀ branch ∈ (cond, block) :: elifs, branch.2.NoFall env)
    (located : PieceAt code pc (compileIfBlocks lEnd cond block elifs elseBlock next).code)
    (isFinish : pc + (compileIfBlocks lEnd cond block elifs elseBlock next).code.length =
      (machine env).offset code lEnd) :
    (runIf env skipParen elseBlock ((cond, block) :: elifs) trace).Reached env code stack
      ((machine env).offset code lEnd) (.running pc ⟨stack, trace⟩) := by
  have others : ∀ other ∈ elifs, other.2.NoFall env :=
    fun other isIn => noFall other (mem_cons_of_mem _ isIn)
  rw [compileIfBlocks] at located isFinish
  rw [runIf]
  split_ifs at located isFinish with isFalse isTrue jumps
  · rw [constFalse_tested isFalse]
    exact compileElifs_reached distinct others located isFinish trace
  · exact always_reached distinct isTrue located isFinish
  · refine clause_reached distinct located ?_ ?_
    · intro tested after _
      exact LabelLang.reaches_jump located.left.right.head rfl
    · exact compileElifs_reached distinct others located.right.tail
        ((length_behind pc _ _ _).symm.trans isFinish)
  · refine clause_reached distinct located ?_ ?_
    · intro tested after isFall
      by_cases returns : block.returns = true
      · exact absurd isFall (noFall (cond, block) mem_cons_self returns tested)
      · -- no other block follows, so that the end is behind the label
        have isAlone : elifs.isEmpty = true ∧ elseBlock.isNone = true := by
          by_contra isMore
          exact jumps ⟨isMore, returns⟩
        have noElifs := List.isEmpty_iff.mp isAlone.1
        have noElse := Option.isNone_iff_eq_none.mp isAlone.2
        subst noElifs noElse
        simp only [append_nil] at located isFinish
        have isEnd := (length_behind pc _ _ _).symm.trans isFinish
        rw [← isEnd]
        exact LabelLang.reaches_next located.right.head rfl
    · exact compileElifs_reached distinct others located.right.tail
        ((length_behind pc _ _ _).symm.trans isFinish)

theorem compileIfStmt_reached {next : Nat}
    (noFall : ∀ branch ∈ (cond, block) :: elifs, branch.2.NoFall env) (trace : List (Event ι)) :
    (runIf env skipParen elseBlock ((cond, block) :: elifs) trace).Reached env
      (compileIfStmt cond block elifs elseBlock next).code stack
      (compileIfStmt cond block elifs elseBlock next).code.length (.running 0 ⟨stack, trace⟩) := by
  have distinct := (compileIfStmt_fresh env cond block elifs elseBlock next).2.1
  have located := pieceAt_whole (compileIfStmt cond block elifs elseBlock next).code
  have isFinish := LabelLang.offset_pieceAt distinct located.right rfl
  refine .followed ?_ (fun after => label_passes distinct)
  exact compileIfBlocks_reached distinct noFall located.left isFinish.symm

section Loop

variable {cond : Cond ι} {body : Block ι} {elseBlock : Option (Block ι)}
  {breakLabel continueLabel topLabel next pc : Nat} {others : List (Instr ι)} {rounds : Nat}

theorem body_reached (distinct : ((machine env).labels code).Nodup)
    (located : PieceAt code pc (.labelAssign topLabel ::
      .block body.name (some (breakLabel, continueLabel)) :: .labelAssign continueLabel :: others))
    {again : List (Event ι) → Progress ι}
    (goesOn : ∀ trace, (again trace).Reached env code stack ((machine env).offset code breakLabel)
      (.running ((machine env).offset code continueLabel) ⟨stack, trace⟩)) :
    (runBody env body again trace).Reached env code stack ((machine env).offset code breakLabel)
      (.running pc ⟨stack, trace⟩) := by
  have isContinue := LabelLang.offset_pieceAt distinct located.tail.tail rfl
  have runs : run env (.block body.name (some (breakLabel, continueLabel))) ⟨stack, trace⟩ =
      some (leave (env.exit trace body.name) (some (breakLabel, continueLabel))
        ⟨stack, trace ++ [.block body.name]⟩) := rfl
  refine .after (LabelLang.reaches_next located.head rfl) ?_
  unfold runBody
  cases isExit : env.exit trace body.name with
  | fall =>
    rw [isExit] at runs
    refine .after (LabelLang.reaches_next located.tail.head runs) ?_
    rw [← isContinue]
    exact goesOn _
  | breaks =>
    rw [isExit] at runs
    exact LabelLang.reaches_jump located.tail.head runs
  | continues =>
    rw [isExit] at runs
    exact .after (LabelLang.reaches_jump located.tail.head runs) (goesOn _)
  | leaves =>
    rw [isExit] at runs
    exact LabelLang.reaches_halt located.tail.head runs

/-- The body of a loop and its condition. -/
def loopCode (topLabel breakLabel continueLabel : Nat) (body : Block ι) (test : List (Instr ι)) :
    List (Instr ι) :=
  .labelAssign topLabel :: .block body.name (some (breakLabel, continueLabel)) ::
    .labelAssign continueLabel :: test

/-- The rounds of a loop from its condition on. -/
theorem rounds_reached (distinct : ((machine env).labels code).Nodup) {test : Emitted ι}
    (isTest : test = cIfCond cond true topLabel next)
    (located : PieceAt code pc (loopCode topLabel breakLabel continueLabel body test.code))
    (otherwise : PieceAt code
      (pc + (loopCode topLabel breakLabel continueLabel body test.code).length)
      (compileBlock elseBlock))
    (isFinish : pc + (loopCode topLabel breakLabel continueLabel body test.code).length +
      (compileBlock elseBlock).length = (machine env).offset code breakLabel)
    (trace : List (Event ι)) :
    (runWhile env skipParen cond body elseBlock rounds trace).Reached env code stack
      ((machine env).offset code breakLabel)
      (.running ((machine env).offset code continueLabel) ⟨stack, trace⟩) := by
  subst isTest
  induction rounds generalizing trace with
  | zero => exact ⟨_, .refl _⟩
  | succ rounds ih =>
    rw [LabelLang.offset_pieceAt distinct located.tail.tail rfl]
    refine .after (LabelLang.reaches_next located.tail.tail.head rfl) ?_
    refine .after (cIfCond_runs env distinct cond true topLabel next _ trace
      located.tail.tail.tail) (branchOn_reached ?_ ?_)
    · intro after
      rw [LabelLang.offset_pieceAt distinct located rfl]
      exact body_reached distinct located ih
    · intro after
      have isBehind : pc + (loopCode topLabel breakLabel continueLabel body
          (cIfCond cond true topLabel next).code).length =
            pc + 1 + 1 + 1 + (cIfCond cond true topLabel next).code.length := by
        simp only [loopCode, length_cons]
        omega
      rw [isBehind] at otherwise isFinish
      exact compileBlock_reached otherwise isFinish

theorem compileLoop_reached (distinct : ((machine env).labels code).Nodup)
    (located : PieceAt code pc (compileLoop breakLabel continueLabel cond body next).code)
    (otherwise : PieceAt code
      (pc + (compileLoop breakLabel continueLabel cond body next).code.length)
      (compileBlock elseBlock))
    (isFinish : pc + (compileLoop breakLabel continueLabel cond body next).code.length +
      (compileBlock elseBlock).length = (machine env).offset code breakLabel)
    (trace : List (Event ι)) :
    (runWhile env skipParen cond body elseBlock rounds trace).Reached env code stack
      ((machine env).offset code breakLabel) (.running pc ⟨stack, trace⟩) := by
  rw [compileLoop] at located otherwise isFinish
  split_ifs at located otherwise isFinish with isFalse isTrue
  · cases rounds with
    | zero => exact ⟨pc, .refl _⟩
    | succ rounds =>
      rw [runWhile, constFalse_tested isFalse]
      exact compileBlock_reached otherwise isFinish
  · cases rounds with
    | zero => exact ⟨pc, .refl _⟩
    | succ rounds =>
      rw [runWhile, constTrue_tested isTrue]
      exact body_reached distinct located (rounds_reached distinct rfl located otherwise isFinish)
  · rw [length_append, ← Nat.add_assoc] at otherwise isFinish
    refine .after (LabelLang.reaches_jump located.left.head rfl) ?_
    exact rounds_reached distinct rfl located.right otherwise isFinish trace

theorem compileWhileStmt_reached (trace : List (Event ι)) :
    (runWhile env skipParen cond body elseBlock rounds trace).Reached env
      (compileWhileStmt cond body elseBlock next).code stack
      (compileWhileStmt cond body elseBlock next).code.length (.running 0 ⟨stack, trace⟩) := by
  have distinct := (compileWhileStmt_fresh env cond body elseBlock next).2.1
  have located := pieceAt_whole (compileWhileStmt cond body elseBlock next).code
  have isFinish := LabelLang.offset_pieceAt distinct located.right rfl
  refine .followed ?_ (fun after => label_passes distinct)
  have starts := located.left.right
  rw [length_append, ← Nat.add_assoc] at isFinish
  exact compileLoop_reached distinct located.left.left starts isFinish.symm trace

end Loop

end Runs

end MultiPython.Compile
