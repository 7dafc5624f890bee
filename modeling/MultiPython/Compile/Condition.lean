import MultiPython.Logic.LabelCode

/-!
# Conditions

`c_if_cond` of `py/compile.c`: the code of a condition, which jumps to a label or goes on. The
subexpressions that are compiled by `compile_node`, and the blocks of the statements, are
instructions here. What they do depends on everything that was run before, which is what a run
leaves behind. A constant is neither a subexpression nor run.
-/

namespace MultiPython.Compile

open Logic List

/-- A leaf of the parse tree that is taken as a constant. -/
inductive ConstLeaf where
  | kwFalse
  | kwTrue
  | smallInt (value : Int)
deriving DecidableEq

mutual

/-- A condition. The elements of a parenthesised tuple that are not constants are
subexpressions. -/
inductive Cond (ι : Type) where
  | const (leaf : ConstLeaf)
  | node (e : ι)
  | notTest (cond : Cond ι)
  | andTest (nodes : Conds ι)
  | orTest (nodes : Conds ι)
  | atomParen (items : List (Option ι))

/-- The nodes of an `and` or `or`. -/
inductive Conds (ι : Type) where
  | last (cond : Cond ι)
  | cons (cond : Cond ι) (rest : Conds ι)

end

/-- How a block ends: it falls out of its end, or leaves it by a `break` or a `continue`, or by a
`return` or an exception. -/
inductive Exit where
  | fall
  | breaks
  | continues
  | leaves
deriving DecidableEq

/-- A block, and whether its last instruction is the one of a `return`. -/
structure Block (ι : Type) where
  name : ι
  returns : Bool

/-- What is run: a subexpression that is an operand of the condition or the condition itself, an
element of a parenthesised tuple, or a block. -/
inductive Event (ι : Type) where
  | node (e : ι)
  | item (e : ι)
  | block (name : ι)

/-- What subexpressions and blocks do after all that was run before: a subexpression is true, false,
or raises an exception. -/
structure Env (ι : Type) where
  truth : List (Event ι) → Event ι → Option Bool
  exit : List (Event ι) → ι → Exit

/-! ## The code -/

/-- The instructions; the code of a subexpression or a block is one of them. A block has the labels
of the loop that it is the body of. -/
inductive Instr (ι : Type) where
  | node (e : ι)
  | jump (label : Nat)
  | popJumpIf (cond : Bool) (label : Nat)
  | labelAssign (label : Nat)
  | block (name : ι) (loop : Option (Nat × Nat))

/-- Code, and the next label. -/
structure Emitted (ι : Type) where
  code : List (Instr ι)
  nextLabel : Nat

section Code

variable {ι : Type}

def mpParseNodeIsConstFalse : Cond ι → Bool
  | .const .kwFalse => true
  | .const (.smallInt value) => value == 0
  | _ => false

def mpParseNodeIsConstTrue : Cond ι → Bool
  | .const .kwTrue => true
  | .const (.smallInt value) => value != 0
  | _ => false

mutual

def cIfCond : Cond ι → Bool → Nat → Nat → Emitted ι
  | .const leaf, jumpIf, label, next =>
    if mpParseNodeIsConstFalse (.const leaf : Cond ι) then
      ⟨if jumpIf = false then [.jump label] else [], next⟩
    else if mpParseNodeIsConstTrue (.const leaf : Cond ι) then
      ⟨if jumpIf = true then [.jump label] else [], next⟩
    else ⟨[], next⟩
  | .node e, jumpIf, label, next => ⟨[.node e, .popJumpIf jumpIf label], next⟩
  | .notTest cond, jumpIf, label, next => cIfCond cond (!jumpIf) label next
  | .orTest nodes, jumpIf, label, next =>
    if jumpIf = false then andOrLogic1 nodes jumpIf label next next.succ
    else andOrLogic2 nodes jumpIf label next
  | .andTest nodes, jumpIf, label, next =>
    if jumpIf = false then andOrLogic2 nodes jumpIf label next
    else andOrLogic1 nodes jumpIf label next next.succ
  | .atomParen items, jumpIf, label, next =>
    if items = [] then ⟨if jumpIf = false then [.jump label] else [], next⟩
    else ⟨if jumpIf = true then [.jump label] else [], next⟩

/-- `and_or_logic1`: all nodes but the last one jump to a label behind them. -/
def andOrLogic1 : Conds ι → Bool → Nat → Nat → Nat → Emitted ι
  | .last cond, jumpIf, label, label2, next =>
    let emitted := cIfCond cond jumpIf label next
    ⟨emitted.code ++ [.labelAssign label2], emitted.nextLabel⟩
  | .cons cond rest, jumpIf, label, label2, next =>
    let first := cIfCond cond (!jumpIf) label2 next
    let others := andOrLogic1 rest jumpIf label label2 first.nextLabel
    ⟨first.code ++ others.code, others.nextLabel⟩

/-- `and_or_logic2`: all nodes jump to the label. -/
def andOrLogic2 : Conds ι → Bool → Nat → Nat → Emitted ι
  | .last cond, jumpIf, label, next => cIfCond cond jumpIf label next
  | .cons cond rest, jumpIf, label, next =>
    let first := cIfCond cond jumpIf label next
    let others := andOrLogic2 rest jumpIf label first.nextLabel
    ⟨first.code ++ others.code, others.nextLabel⟩

end

end Code

/-! ## Running the code -/

/-- The values on the stack, of which only the truth counts here, and what was run. -/
structure Frame (ι : Type) where
  stack : List Bool
  trace : List (Event ι)

/-- The end of a run that does not reach the end of the code. -/
inductive Halt (ι : Type) where
  | raised (trace : List (Event ι))
  | left (exit : Exit) (trace : List (Event ι))

section Machine

variable {ι : Type} (env : Env ι)

/-- Go on after a block. -/
def leave (exit : Exit) (loop : Option (Nat × Nat)) (frame : Frame ι) :
    Effect (Frame ι) (Halt ι) :=
  match exit, loop with
  | .fall, _ => .next frame
  | .breaks, some labels => .jump labels.1 frame
  | .continues, some labels => .jump labels.2 frame
  | exit, _ => .halt (.left exit frame.trace)

/-- What an instruction does. -/
def run : Instr ι → Frame ι → Option (Effect (Frame ι) (Halt ι))
  | .node e, ⟨stack, trace⟩ => some <|
      match env.truth trace (.node e) with
      | some value => .next ⟨value :: stack, trace ++ [.node e]⟩
      | none => .halt (.raised (trace ++ [.node e]))
  | .jump label, frame => some (.jump label frame)
  | .popJumpIf cond label, ⟨stack, trace⟩ =>
    match stack with
    | [] => none
    | value :: stack =>
      some (if value = cond then .jump label ⟨stack, trace⟩ else .next ⟨stack, trace⟩)
  | .labelAssign _, frame => some (.next frame)
  | .block name loop, ⟨stack, trace⟩ =>
    some (leave (env.exit trace name) loop ⟨stack, trace ++ [.block name]⟩)

/-- The label that an instruction assigns. -/
def assigned : Instr ι → Option Nat
  | .labelAssign label => some label
  | _ => none

/-- The virtual machine. -/
def machine : LabelLang (Instr ι) (Frame ι) (Halt ι) where
  assigned := assigned
  run := run env

end Machine

/-! ## What Python does -/

section Python

variable {ι : Type} (env : Env ι)

/-- The truth of a constant. -/
def ConstLeaf.truth : ConstLeaf → Bool
  | .kwFalse => false
  | .kwTrue => true
  | .smallInt value => value != 0

/-- What was run then, and the truth of a condition if no exception was raised. -/
abbrev Tested (ι : Type) := List (Event ι) × Option Bool

/-- Evaluate the elements of a tuple: what was run then, and whether no element raised an
exception. -/
def evalItems : List (Option ι) → List (Event ι) → List (Event ι) × Bool
  | [], trace => (trace, true)
  | none :: items, trace => evalItems items trace
  | some e :: items, trace =>
    match env.truth trace (.item e) with
    | none => (trace ++ [.item e], false)
    | some _ => evalItems items (trace ++ [.item e])

/-- Evaluate a parenthesised tuple and test its truth. -/
def evalParen (items : List (Option ι)) (trace : List (Event ι)) : Tested ι :=
  let evaluated := evalItems env items trace
  (evaluated.1, if evaluated.2 then some (!items.isEmpty) else none)

/-- The truth of a parenthesised tuple that is not evaluated. -/
def skipParen (items : List (Option ι)) (trace : List (Event ι)) : Tested ι :=
  (trace, some (!items.isEmpty))

mutual

/-- Evaluate a condition and test its truth. -/
def evalCond (paren : List (Option ι) → List (Event ι) → Tested ι) :
    Cond ι → List (Event ι) → Tested ι
  | .const leaf, trace => (trace, some leaf.truth)
  | .node e, trace => (trace ++ [.node e], env.truth trace (.node e))
  | .notTest cond, trace =>
    let tested := evalCond paren cond trace
    (tested.1, tested.2.map not)
  | .andTest nodes, trace => evalConds paren false nodes trace
  | .orTest nodes, trace => evalConds paren true nodes trace
  | .atomParen items, trace => paren items trace

/-- Evaluate conditions up to one with a truth that decides. -/
def evalConds (paren : List (Option ι) → List (Event ι) → Tested ι) (decides : Bool) :
    Conds ι → List (Event ι) → Tested ι
  | .last cond, trace => evalCond paren cond trace
  | .cons cond rest, trace =>
    let tested := evalCond paren cond trace
    if tested.2 = some (!decides) then evalConds paren decides rest tested.1 else tested

end

end Python

/-! ## The labels -/

section Labels

variable {ι : Type} (env : Env ι)

/-- The code of a condition that is known: it jumps if the truth is the one to jump for. -/
def known (truth jumpIf : Bool) (label : Nat) : List (Instr ι) :=
  if truth = jumpIf then [.jump label] else []

theorem cIfCond_const (leaf : ConstLeaf) (jumpIf : Bool) (label next : Nat) :
    cIfCond (.const leaf : Cond ι) jumpIf label next = ⟨known leaf.truth jumpIf label, next⟩ := by
  rw [cIfCond]
  cases leaf with
  | kwFalse => cases jumpIf <;> rfl
  | kwTrue => cases jumpIf <;> rfl
  | smallInt value =>
    by_cases isZero : value = 0
    · subst isZero
      cases jumpIf <;> rfl
    · cases jumpIf <;>
        simp [mpParseNodeIsConstFalse, mpParseNodeIsConstTrue, ConstLeaf.truth, known, isZero]

theorem cIfCond_atomParen (items : List (Option ι)) (jumpIf : Bool) (label next : Nat) :
    cIfCond (.atomParen items) jumpIf label next =
      ⟨known (!items.isEmpty) jumpIf label, next⟩ := by
  rw [cIfCond]
  cases items with
  | nil => cases jumpIf <;> rfl
  | cons item items => cases jumpIf <;> rfl

theorem labels_known (truth jumpIf : Bool) (label : Nat) :
    (machine env).labels (known truth jumpIf label) = [] := by
  rw [known]
  split_ifs <;> rfl

theorem fresh_of_ends {emitted : Emitted ι} {next : Nat}
    (ends : ∃ front, emitted.code = front ++ [.labelAssign next] ∧
      (machine env).Fresh front next.succ emitted.nextLabel) :
    (machine env).Fresh emitted.code next emitted.nextLabel := by
  obtain ⟨front, isCode, fresh⟩ := ends
  rw [← append_nil front] at fresh
  rw [isCode]
  exact fresh.assign rfl

mutual

theorem cIfCond_fresh (cond : Cond ι) (jumpIf : Bool) (label next : Nat) :
    (machine env).Fresh (cIfCond cond jumpIf label next).code next
      (cIfCond cond jumpIf label next).nextLabel := by
  cases cond with
  | const leaf =>
    rw [cIfCond_const]
    exact .none (labels_known env leaf.truth jumpIf label) le_rfl
  | node e => exact .none rfl le_rfl
  | notTest cond => exact cIfCond_fresh cond (!jumpIf) label next
  | andTest nodes =>
    cases jumpIf with
    | false => exact andOrLogic2_fresh nodes false label next
    | true => exact fresh_of_ends env (andOrLogic1_fresh nodes true label next next.succ)
  | orTest nodes =>
    cases jumpIf with
    | false => exact fresh_of_ends env (andOrLogic1_fresh nodes false label next next.succ)
    | true => exact andOrLogic2_fresh nodes true label next
  | atomParen items =>
    rw [cIfCond_atomParen]
    exact .none (labels_known env (!items.isEmpty) jumpIf label) le_rfl

theorem andOrLogic1_fresh (nodes : Conds ι) (jumpIf : Bool) (label label2 next : Nat) :
    ∃ front, (andOrLogic1 nodes jumpIf label label2 next).code = front ++ [.labelAssign label2] ∧
      (machine env).Fresh front next (andOrLogic1 nodes jumpIf label label2 next).nextLabel := by
  cases nodes with
  | last cond => exact ⟨_, rfl, cIfCond_fresh cond jumpIf label next⟩
  | cons cond rest =>
    have first := cIfCond_fresh cond (!jumpIf) label2 next
    obtain ⟨front, isCode, others⟩ := andOrLogic1_fresh rest jumpIf label label2
      (cIfCond cond (!jumpIf) label2 next).nextLabel
    refine ⟨(cIfCond cond (!jumpIf) label2 next).code ++ front, ?_, first.append others⟩
    rw [append_assoc, ← isCode]
    rfl

theorem andOrLogic2_fresh (nodes : Conds ι) (jumpIf : Bool) (label next : Nat) :
    (machine env).Fresh (andOrLogic2 nodes jumpIf label next).code next
      (andOrLogic2 nodes jumpIf label next).nextLabel := by
  cases nodes with
  | last cond => exact cIfCond_fresh cond jumpIf label next
  | cons cond rest =>
    exact (cIfCond_fresh cond jumpIf label next).append (andOrLogic2_fresh rest jumpIf label _)

end

end Labels

/-! ## Runs of the code of a condition -/

section Runs

variable {ι : Type} (env : Env ι) {code : List (Instr ι)} {stack : List Bool}
  {trace : List (Event ι)}

/-- Where the code of a condition leads to: to the label if the truth is the one to jump for, and
behind the code if it is not. -/
def condPlace (code : List (Instr ι)) (behind : Nat) (jumpIf : Bool) (label : Nat)
    (stack : List Bool) (tested : Tested ι) : Place (Frame ι) (Halt ι) :=
  match tested.2 with
  | none => .halted (.raised tested.1)
  | some truth =>
    .running (if truth = jumpIf then (machine env).offset code label else behind)
      ⟨stack, tested.1⟩

variable {truth jumpIf : Bool}

theorem condPlace_known (behind : Nat) (isTruth : truth = jumpIf) (label : Nat) :
    condPlace env code behind jumpIf label stack (trace, some truth) =
      .running ((machine env).offset code label) ⟨stack, trace⟩ :=
  congrArg (Place.running · _) (if_pos isTruth)

theorem condPlace_behind (behind : Nat) (isTruth : ¬ truth = jumpIf) (label : Nat) :
    condPlace env code behind jumpIf label stack (trace, some truth) =
      .running behind ⟨stack, trace⟩ :=
  congrArg (Place.running · _) (if_neg isTruth)

theorem condPlace_not (behind : Nat) (jumpIf : Bool) (label : Nat) (tested : Tested ι) :
    condPlace env code behind (!jumpIf) label stack tested =
      condPlace env code behind jumpIf label stack (tested.1, tested.2.map not) := by
  obtain ⟨trace, truth⟩ := tested
  cases truth with
  | none => rfl
  | some truth => cases truth <;> cases jumpIf <;> rfl

theorem condPlace_passes {behind label2 : Nat}
    (here : code[behind]? = some (.labelAssign label2)) (jumpIf : Bool) (label : Nat)
    (tested : Tested ι) :
    (machine env).Reaches code (condPlace env code behind jumpIf label stack tested)
      (condPlace env code (behind + 1) jumpIf label stack tested) := by
  obtain ⟨trace, truth⟩ := tested
  cases truth with
  | none => exact .refl _
  | some truth =>
    by_cases isTruth : truth = jumpIf
    · rw [condPlace_known env behind isTruth, condPlace_known env (behind + 1) isTruth]
      exact .refl _
    · rw [condPlace_behind env behind isTruth, condPlace_behind env (behind + 1) isTruth]
      exact LabelLang.reaches_next here rfl

variable {paren : List (Option ι) → List (Event ι) → Tested ι} {after : List (Event ι)}

theorem evalConds_goes {decides : Bool} {cond : Cond ι}
    (tested : evalCond env paren cond trace = (after, some (!decides))) (rest : Conds ι) :
    evalConds env paren decides (.cons cond rest) trace =
      evalConds env paren decides rest after := by
  rw [evalConds, tested]
  exact if_pos rfl

theorem evalConds_stops {decides : Bool} {cond : Cond ι} {truth : Option Bool}
    (tested : evalCond env paren cond trace = (after, truth)) (stops : ¬ truth = some (!decides))
    (rest : Conds ι) : evalConds env paren decides (.cons cond rest) trace = (after, truth) := by
  rw [evalConds, tested]
  exact if_neg stops

theorem known_runs {pc : Nat} {label : Nat} (located : PieceAt code pc (known truth jumpIf label)) :
    (machine env).Reaches code (.running pc ⟨stack, trace⟩)
      (condPlace env code (pc + (known truth jumpIf label : List (Instr ι)).length) jumpIf label
        stack (trace, some truth)) := by
  by_cases isTruth : truth = jumpIf
  · rw [condPlace_known env _ isTruth]
    rw [known, if_pos isTruth] at located
    exact LabelLang.reaches_jump located.head rfl
  · rw [condPlace_behind env _ isTruth, known, if_neg isTruth]
    exact .refl _

mutual

/-- The code of a condition evaluates it, except for parenthesised tuples. -/
theorem cIfCond_runs (distinct : ((machine env).labels code).Nodup) (cond : Cond ι) (jumpIf : Bool)
    (label next pc : Nat) (trace : List (Event ι))
    (located : PieceAt code pc (cIfCond cond jumpIf label next).code) :
    (machine env).Reaches code (.running pc ⟨stack, trace⟩)
      (condPlace env code (pc + (cIfCond cond jumpIf label next).code.length) jumpIf label stack
        (evalCond env skipParen cond trace)) := by
  cases cond with
  | const leaf =>
    rw [cIfCond_const] at located ⊢
    exact known_runs env located
  | node e =>
    have evaluates := located.head
    have tests := located.tail.head
    cases isTruth : env.truth trace (.node e) with
    | none =>
      have halts : run env (.node e) ⟨stack, trace⟩ =
          some (.halt (.raised (trace ++ [.node e]))) := by
        rw [run, isTruth]
      have isPlace : evalCond env skipParen (.node e) trace = (trace ++ [.node e], none) := by
        rw [evalCond, isTruth]
      rw [isPlace]
      exact LabelLang.reaches_halt evaluates halts
    | some truth =>
      have pushes : run env (.node e) ⟨stack, trace⟩ =
          some (.next ⟨truth :: stack, trace ++ [.node e]⟩) := by
        rw [run, isTruth]
      have isPlace : evalCond env skipParen (.node e) trace =
          (trace ++ [.node e], some truth) := by
        rw [evalCond, isTruth]
      rw [isPlace]
      refine .trans (LabelLang.reaches_next evaluates pushes) ?_
      by_cases isJump : truth = jumpIf
      · rw [condPlace_known env _ isJump]
        refine LabelLang.reaches_jump tests ?_
        exact congrArg some (if_pos isJump)
      · rw [condPlace_behind env _ isJump]
        refine LabelLang.reaches_next tests ?_
        exact congrArg some (if_neg isJump)
  | notTest cond =>
    have inner := cIfCond_runs distinct cond (!jumpIf) label next pc trace located
    rw [condPlace_not] at inner
    exact inner
  | andTest nodes =>
    cases jumpIf with
    | false => exact andOrLogic2_runs distinct nodes false label next pc trace located
    | true =>
      exact andOrLogic1_runs distinct nodes true label next next.succ pc trace located
  | orTest nodes =>
    cases jumpIf with
    | false =>
      exact andOrLogic1_runs distinct nodes false label next next.succ pc trace located
    | true => exact andOrLogic2_runs distinct nodes true label next pc trace located
  | atomParen items =>
    rw [cIfCond_atomParen] at located ⊢
    exact known_runs env located

theorem andOrLogic1_runs (distinct : ((machine env).labels code).Nodup) (nodes : Conds ι)
    (jumpIf : Bool) (label label2 next pc : Nat) (trace : List (Event ι))
    (located : PieceAt code pc (andOrLogic1 nodes jumpIf label label2 next).code) :
    (machine env).Reaches code (.running pc ⟨stack, trace⟩)
      (condPlace env code (pc + (andOrLogic1 nodes jumpIf label label2 next).code.length) jumpIf
        label stack (evalConds env skipParen (!jumpIf) nodes trace)) := by
  cases nodes with
  | last cond =>
    have tests := cIfCond_runs distinct cond jumpIf label next pc trace located.left
    rw [andOrLogic1, length_append]
    exact tests.trans (condPlace_passes env located.right.head jumpIf label
      (evalCond env skipParen cond trace))
  | cons cond rest =>
    have first := cIfCond_runs distinct cond (!jumpIf) label2 next pc trace located.left
    have others := andOrLogic1_runs distinct rest jumpIf label label2 _ _
      (evalCond env skipParen cond trace).1 located.right
    rw [Nat.add_assoc, ← length_append] at others
    obtain ⟨front, isCode, -⟩ := andOrLogic1_fresh env (.cons cond rest) jumpIf label label2 next
    cases tested : evalCond env skipParen cond trace with
    | mk after truth =>
      rw [tested] at first others
      cases truth with
      | none =>
        rw [evalConds_stops env tested (by simp) rest]
        exact first
      | some truth =>
        by_cases isTruth : truth = jumpIf
        · -- the condition does not decide, so that the others follow it
          subst isTruth
          rw [evalConds_goes env (by rw [tested, Bool.not_not]) rest]
          rw [condPlace_behind env _ (by simp)] at first
          exact first.trans others
        · -- the condition decides, and the label is the last instruction
          rw [condPlace_known env _ (Bool.eq_not.mpr isTruth)] at first
          rw [evalConds_stops env tested (by simpa using isTruth) rest,
            condPlace_behind env _ isTruth, isCode, length_append]
          rw [isCode] at located
          rw [LabelLang.offset_pieceAt distinct located.right rfl] at first
          exact first.trans (LabelLang.reaches_next located.right.head rfl)

theorem andOrLogic2_runs (distinct : ((machine env).labels code).Nodup) (nodes : Conds ι)
    (jumpIf : Bool) (label next pc : Nat) (trace : List (Event ι))
    (located : PieceAt code pc (andOrLogic2 nodes jumpIf label next).code) :
    (machine env).Reaches code (.running pc ⟨stack, trace⟩)
      (condPlace env code (pc + (andOrLogic2 nodes jumpIf label next).code.length) jumpIf
        label stack (evalConds env skipParen jumpIf nodes trace)) := by
  cases nodes with
  | last cond => exact cIfCond_runs distinct cond jumpIf label next pc trace located
  | cons cond rest =>
    have first := cIfCond_runs distinct cond jumpIf label next pc trace located.left
    have others := andOrLogic2_runs distinct rest jumpIf label _ _
      (evalCond env skipParen cond trace).1 located.right
    rw [Nat.add_assoc, ← length_append] at others
    cases tested : evalCond env skipParen cond trace with
    | mk after truth =>
      rw [tested] at first others
      cases truth with
      | none =>
        rw [evalConds_stops env tested (by simp) rest]
        exact first
      | some truth =>
        by_cases isTruth : truth = jumpIf
        · rw [condPlace_known env _ isTruth] at first
          rw [evalConds_stops env tested (by simpa using isTruth) rest,
            condPlace_known env _ isTruth]
          exact first
        · rw [condPlace_behind env _ isTruth] at first
          rw [evalConds_goes env (by rw [tested, Bool.eq_not.mpr isTruth]) rest]
          exact first.trans others

end

end Runs

end MultiPython.Compile
