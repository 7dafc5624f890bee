import MultiPython.Parse.Lexer

/-!
# Constant folding

`fold_logical_constants` and `fold_constants` of `py/parse.c`, which work on the result stack when a
rule has been matched, and what the code does that `py/compile.c` makes of a tree.
-/

namespace MultiPython.Parse

open List

/-! ## Objects -/

/-- The integer objects: the small ones, and those with digits of their own. -/
inductive IntObj where
  | small (val : Int)
  | big (val : Int)
deriving DecidableEq

/-- `mp_obj_int_sign`. -/
def IntObj.sign : IntObj → Int
  | .small val | .big val => val.sign

/-- The operators of `mp_binary_op_t` that the rules below have. -/
inductive BinaryOp where
  | or | xor | and | lshift | rshift | add | subtract | multiply | floorDivide | trueDivide | modulo
deriving DecidableEq

/-- The place of an operator in `mp_binary_op_t`, from `MP_BINARY_OP_OR` on. -/
def BinaryOp.place : BinaryOp → Nat
  | .or => 0
  | .xor => 1
  | .and => 2
  | .lshift => 3
  | .rshift => 4
  | .add => 5
  | .subtract => 6
  | .multiply => 7
  | .floorDivide => 8
  | .trueDivide => 9
  | .modulo => 10

/-- The operators of `mp_unary_op_t` that `factor_2` has. -/
inductive UnaryOp where
  | positive | negative | invert
deriving DecidableEq

/-- What an expression gives. -/
inductive Obj (ο : Type) where
  | int (obj : IntObj)
  | bool (value : Bool)
  | other (obj : ο)

section Runtime

variable {α ο ε ω : Type}

/-- A computation that may raise, in a world and with the expressions that have been evaluated. -/
abbrev Run (α ε ω β : Type) : Type := ExceptT ε (StateM (ω × List α)) β

/-- What the rest of the runtime does: the arithmetic of integers, which depends on nothing else, the
operators where an argument is not an integer, and the expressions that are not constant. -/
structure Runtime (α ο ε ω : Type) where
  intBinary : BinaryOp → IntObj → IntObj → Except ε IntObj
  intUnary : UnaryOp → IntObj → Except ε IntObj
  binary : BinaryOp → Obj ο → Obj ο → Run α ε ω (Obj ο)
  unary : UnaryOp → Obj ο → Run α ε ω (Obj ο)
  isTrue : ο → Run α ε ω Bool
  other : α → Run α ε ω (Obj ο)
  token : TokenKind → ο

variable (m : Runtime α ο ε ω)

def ofInt : Except ε IntObj → Run α ε ω (Obj ο)
  | .ok obj => pure (.int obj)
  | .error raised => throw raised

/-- `mp_binary_op`. A true division does not give an integer. -/
def mpBinaryOp (op : BinaryOp) : Obj ο → Obj ο → Run α ε ω (Obj ο)
  | .int lhs, .int rhs =>
    if op = .trueDivide then m.binary op (.int lhs) (.int rhs) else ofInt (m.intBinary op lhs rhs)
  | lhs, rhs => m.binary op lhs rhs

def mpUnaryOp (op : UnaryOp) : Obj ο → Run α ε ω (Obj ο)
  | .int obj => ofInt (m.intUnary op obj)
  | obj => m.unary op obj

def mpObjIsTrue : Obj ο → Run α ε ω Bool
  | .int obj => pure (obj.sign ≠ 0)
  | .bool value => pure value
  | .other obj => m.isTrue obj

/-! ## Parse trees -/

/-- The rules of expressions. -/
inductive Rule where
  | orTest | andTest | notTest2 | expr | xorExpr | andExpr | shiftExpr | arithExpr | term | factor2
deriving DecidableEq

/-- `mp_parse_node_t`; a `RULE_const_object` has an integer. The expressions of other rules are
taken as a whole. -/
inductive ParseNode (α : Type) where
  | null
  | smallInt (val : Int)
  | constObject (obj : IntObj)
  | token (kind : TokenKind)
  | other (a : α)
  | rule (id : Rule) (nodes : List (ParseNode α))

def ParseNode.token? : ParseNode α → Option TokenKind
  | .token kind => some kind
  | _ => none

/-! ### The meaning of a tree -/

/-- The switch of `compile_term`. -/
def compileTermOp : TokenKind → BinaryOp
  | .opPlus => .add
  | .opMinus => .subtract
  | .opStar => .multiply
  | .opDblSlash => .floorDivide
  | .opSlash => .trueDivide
  | .opPercent => .modulo
  | .opDblLess => .lshift
  | _ => .rshift

/-- The operator of a factor. -/
def factorOp : TokenKind → UnaryOp
  | .opPlus => .positive
  | .opMinus => .negative
  | _ => .invert

/-- Tokens that are objects. -/
def ofToken : TokenKind → Obj ο
  | .kwTrue => .bool true
  | .kwFalse => .bool false
  | kind => .other (m.token kind)

/-- The code of `compile_or_and_test`: all but the last part jump to the end or are popped. -/
def evalLogical (cond : Bool) : List (Run α ε ω (Obj ο)) → Run α ε ω (Obj ο)
  | [] => pure (ofToken m .endMarker)
  | [last] => last
  | part :: rest => do
      let value ← part
      if (← mpObjIsTrue m value) = cond then pure value else evalLogical cond rest

/-- The code of `compile_binary_op`. -/
def evalBinary (op : BinaryOp) : List (Run α ε ω (Obj ο)) → Run α ε ω (Obj ο)
  | [] => pure (ofToken m .endMarker)
  | first :: rest => do
      rest.foldlM (fun lhs part => do mpBinaryOp m op lhs (← part)) (← first)

/-- The loop of `compile_term`: operators and operands in turn. -/
def evalTerm : Obj ο → List (Option TokenKind × Run α ε ω (Obj ο)) → Run α ε ω (Obj ο)
  | lhs, (some tok, _) :: (_, part) :: rest => do
      evalTerm (← mpBinaryOp m (compileTermOp tok) lhs (← part)) rest
  | lhs, _ => pure lhs

/-- The code for a rule. -/
def evalRule : Rule → List (Option TokenKind × Run α ε ω (Obj ο)) → Run α ε ω (Obj ο)
  | .orTest, parts => evalLogical m true (parts.map Prod.snd)
  | .andTest, parts => evalLogical m false (parts.map Prod.snd)
  | .notTest2, [(_, part)] => do return .bool !(← mpObjIsTrue m (← part))
  | .expr, parts => evalBinary m .or (parts.map Prod.snd)
  | .xorExpr, parts => evalBinary m .xor (parts.map Prod.snd)
  | .andExpr, parts => evalBinary m .and (parts.map Prod.snd)
  | .factor2, [(some tok, _), (_, part)] => do mpUnaryOp m (factorOp tok) (← part)
  | .shiftExpr, (_, first) :: rest | .arithExpr, (_, first) :: rest | .term, (_, first) :: rest => do
      evalTerm m (← first) rest
  | _, _ => pure (ofToken m .endMarker)

mutual

/-- What the code for a tree does. -/
def eval : ParseNode α → Run α ε ω (Obj ο)
  | .null => pure (ofToken m .endMarker)
  | .smallInt val => pure (.int (.small val))
  | .constObject obj => pure (.int obj)
  | .token kind => pure (ofToken m kind)
  | .other a => do
      modify fun (world, evaluated) => (world, evaluated ++ [a])
      m.other a
  | .rule id nodes => evalRule m id (evalAll nodes)

def evalAll : List (ParseNode α) → List (Option TokenKind × Run α ε ω (Obj ο))
  | [] => []
  | node :: nodes => (node.token?, eval node) :: evalAll nodes

end

/-! ## The parser -/

/-- The result stack, with its top first. -/
abbrev Stack (α : Type) : Type := List (ParseNode α)

def peekResult (stack : Stack α) (pos : Nat) : ParseNode α := stack.getD pos .null

/-- `mp_parse_node_is_const_false`. -/
def isConstFalse : ParseNode α → Bool
  | .token kind => kind = .kwFalse
  | .smallInt val => val = 0
  | _ => false

/-- `mp_parse_node_is_const_true`. -/
def isConstTrue : ParseNode α → Bool
  | .token kind => kind = .kwTrue
  | .smallInt val => val ≠ 0
  | _ => false

/-- `mp_parse_node_get_int_maybe`. -/
def getIntMaybe : ParseNode α → Option IntObj
  | .smallInt val => some (.small val)
  | .constObject obj => some obj
  | _ => none

/-- The node of an integer. -/
def intNode : IntObj → ParseNode α
  | .small val => .smallInt val
  | .big val => .constObject (.big val)

/-- The argument ends the operator: it is always the result. -/
def stops (isOr : Bool) (node : ParseNode α) : Bool :=
  if isOr then isConstTrue node else isConstFalse node

/-- The argument is never the result. -/
def drops (isOr : Bool) (node : ParseNode α) : Bool :=
  if isOr then isConstFalse node else isConstTrue node

/-- The loop of `fold_logical_constants`, with `i` and `copy_to`. -/
def foldLogicalLoop (isOr : Bool) : Nat → Nat → Stack α → Nat × Stack α
  | 0, copyTo, stack => (copyTo, stack)
  | i + 1, copyTo, stack =>
    let node := peekResult stack i
    let stack := stack.set (copyTo - 1) node
    if i = 0 then (copyTo, stack)
    else if stops isOr node then (copyTo, stack)
    else foldLogicalLoop isOr i (if drops isOr node then copyTo else copyTo - 1) stack

/-- The part of `fold_logical_constants` for `or` and `and`. -/
def foldLogical (isOr : Bool) (stack : Stack α) (numArgs : Nat) : Bool × Stack α × Nat :=
  let (copyTo, stack) := foldLogicalLoop isOr numArgs numArgs stack
  let numArgs := numArgs - (copyTo - 1)
  (numArgs = 1, stack.drop (copyTo - 1), numArgs)

def foldLogicalConstants (id : Rule) (stack : Stack α) (numArgs : Nat) : Bool × Stack α × Nat :=
  match id with
  | .orTest => foldLogical true stack numArgs
  | .andTest => foldLogical false stack numArgs
  | .notTest2 =>
    let node := peekResult stack 0
    if isConstFalse node then (true, .token .kwTrue :: stack.drop 1, numArgs)
    else if isConstTrue node then (true, .token .kwFalse :: stack.drop 1, numArgs)
    else (false, stack, numArgs)
  | _ => (false, stack, numArgs)

/-- The loop of `fold_constants` for `|`, `^` and `&`, with so many arguments to come. -/
def foldBinaryLoop (op : BinaryOp) (stack : Stack α) : Nat → IntObj → Except ε (Option IntObj)
  | 0, arg0 => .ok (some arg0)
  | i + 1, arg0 =>
    match getIntMaybe (peekResult stack i) with
    | none => .ok none
    | some arg1 => do foldBinaryLoop op stack i (← m.intBinary op arg0 arg1)

/-- `token_to_op`; there is nothing for the operators that are not folded. -/
def tokenToOp : TokenKind → Option BinaryOp
  | .opPlus => some .add
  | .opMinus => some .subtract
  | .opStar => some .multiply
  | .opDblSlash => some .floorDivide
  | .opPercent => some .modulo
  | .opDblLess => some .lshift
  | .opDblMore => some .rshift
  | _ => none

/-- The right side is one that the operator raises for. -/
def refusesRhs (op : BinaryOp) (rhsSign : Int) : Bool :=
  if op.place ≤ BinaryOp.rshift.place then rhsSign < 0
  else if BinaryOp.floorDivide.place ≤ op.place then rhsSign = 0
  else false

/-- The loop of `fold_constants` for the operators with tokens, with so many nodes to come. -/
def foldTermLoop (stack : Stack α) : Nat → IntObj → Except ε (Option IntObj)
  | i + 2, arg0 =>
    match getIntMaybe (peekResult stack i), (peekResult stack (i + 1)).token?.bind tokenToOp with
    | some arg1, some op =>
      if refusesRhs op arg1.sign then .ok none
      else do foldTermLoop stack i (← m.intBinary op arg0 arg1)
    | _, _ => .ok none
  | _, arg0 => .ok (some arg0)

/-- The integer that `fold_constants` finds. -/
def foldedInt (id : Rule) (stack : Stack α) (numArgs : Nat) : Except ε (Option IntObj) :=
  let folded (loop : IntObj → Except ε (Option IntObj)) : Except ε (Option IntObj) :=
    match getIntMaybe (peekResult stack (numArgs - 1)) with
    | none => .ok none
    | some arg0 => loop arg0
  match id with
  | .expr => folded (foldBinaryLoop m .or stack (numArgs - 1))
  | .xorExpr => folded (foldBinaryLoop m .xor stack (numArgs - 1))
  | .andExpr => folded (foldBinaryLoop m .and stack (numArgs - 1))
  | .shiftExpr | .arithExpr | .term => folded (foldTermLoop m stack (numArgs - 1))
  | .factor2 =>
    match getIntMaybe (peekResult stack 0), (peekResult stack 1).token? with
    | some arg0, some tok => (m.intUnary (factorOp tok) arg0).map some
    | _, _ => .ok none
  | _ => .ok none

/-- `fold_constants`; nothing if it does not fold. -/
def foldConstants (id : Rule) (stack : Stack α) (numArgs : Nat) : Except ε (Option (Stack α)) := do
  return (← foldedInt m id stack numArgs).map fun arg0 => intNode arg0 :: stack.drop numArgs

/-- `push_result_rule`, with the folding or without. The arithmetic of the folding may raise. -/
def pushResultRule (folding : Bool) (id : Rule) (numArgs : Nat) (stack : Stack α) :
    Except ε (Stack α) :=
  let node (numArgs : Nat) (stack : Stack α) : Stack α :=
    .rule id (stack.take numArgs).reverse :: stack.drop numArgs
  if folding then
    let (folded, stack, numArgs) := foldLogicalConstants id stack numArgs
    if folded then .ok stack
    else do return (← foldConstants m id stack numArgs).getD (node numArgs stack)
  else .ok (node numArgs stack)

mutual

/-- The parser on an expression with this tree: what a rule matches is pushed before the rule is. -/
def pushTree (folding : Bool) : ParseNode α → Stack α → Except ε (Stack α)
  | .rule id nodes, stack => do
      pushResultRule m folding id nodes.length (← pushTrees folding nodes stack)
  | leaf, stack => .ok (leaf :: stack)

def pushTrees (folding : Bool) : List (ParseNode α) → Stack α → Except ε (Stack α)
  | [], stack => .ok stack
  | node :: nodes, stack => do pushTrees folding nodes (← pushTree folding node stack)

end

/-- The tree that the parser builds for an expression. -/
def parseTree (folding : Bool) (tree : ParseNode α) : Except ε (ParseNode α) := do
  return (← pushTree m folding tree []).headD .null

/-! ## Trees that the parser can match -/

/-- The rule of a logical operator. -/
def logicalRule (isOr : Bool) : Rule := if isOr then .orTest else .andTest

/-- The rules whose arguments are the operands of one operator. -/
def Rule.binaryOp? : Rule → Option BinaryOp
  | .expr => some .or
  | .xorExpr => some .xor
  | .andExpr => some .and
  | _ => none

/-- The rules with an operator between every two operands. -/
def Rule.isTerm (id : Rule) : Prop := id = .shiftExpr ∨ id = .arithExpr ∨ id = .term

/-- An operator with the operand after it. -/
def operation (pair : TokenKind × ParseNode α) : List (ParseNode α) := [.token pair.1, pair.2]

/-- The tree of an expression. -/
inductive Formed : ParseNode α → Prop where
  | smallInt (val : Int) : Formed (.smallInt val)
  | constObject (obj : IntObj) : Formed (.constObject obj)
  | token (kind : TokenKind) : Formed (.token kind)
  | other (a : α) : Formed (.other a)
  | logical (isOr : Bool) {nodes} (some_ : nodes ≠ []) (formed : ∀ node ∈ nodes, Formed node) :
      Formed (.rule (logicalRule isOr) nodes)
  | not {node} (formed : Formed node) : Formed (.rule .notTest2 [node])
  | binary {id op nodes} (isBinary : Rule.binaryOp? id = some op) (some_ : nodes ≠ [])
      (formed : ∀ node ∈ nodes, Formed node) : Formed (.rule id nodes)
  | term {id first} {rest : List (TokenKind × ParseNode α)} (isTerm : Rule.isTerm id)
      (formed : Formed first)
      (others : ∀ pair ∈ rest, Formed pair.2) :
      Formed (.rule id (first :: rest.flatMap operation))
  | factor (tok : TokenKind) {node} (formed : Formed node) :
      Formed (.rule .factor2 [.token tok, node])

/-! ## The stack -/

variable {m : Runtime α ο ε ω}

theorem peek_behind (args : List (ParseNode α)) (node : ParseNode α) (below : Stack α) :
    peekResult (args.reverse ++ node :: below) args.length = node := by
  rw [peekResult, getD_append_right _ _ _ _ (by rw [length_reverse]), length_reverse,
    Nat.sub_self]
  rfl

theorem takes_args (args : List (ParseNode α)) (below : Stack α) :
    ((args.reverse ++ below).take args.length).reverse = args ∧
      (args.reverse ++ below).drop args.length = below := by
  constructor
  · rw [take_left' length_reverse, reverse_reverse]
  · exact drop_left' length_reverse

theorem pushResultRule_unfolded (id : Rule) (args : List (ParseNode α)) (below : Stack α) :
    pushResultRule m false id args.length (args.reverse ++ below) = .ok (.rule id args :: below) := by
  obtain ⟨taken, left⟩ := takes_args args below
  simp only [pushResultRule, Bool.false_eq_true, if_false, taken, left]

mutual

theorem pushTree_unfolded (tree : ParseNode α) (below : Stack α) :
    pushTree m false tree below = .ok (tree :: below) := by
  cases tree with
  | rule id nodes =>
    rw [pushTree, pushTrees_unfolded nodes below]
    exact pushResultRule_unfolded (m := m) id nodes below
  | null => rfl
  | smallInt val => rfl
  | constObject obj => rfl
  | token kind => rfl
  | other a => rfl

theorem pushTrees_unfolded (nodes : List (ParseNode α)) (below : Stack α) :
    pushTrees m false nodes below = .ok (nodes.reverse ++ below) := by
  cases nodes with
  | nil => rfl
  | cons node nodes =>
    rw [pushTrees, pushTree_unfolded node below, reverse_cons, append_assoc]
    exact pushTrees_unfolded nodes (node :: below)

end

/-! ## Constants -/

variable {node : ParseNode α}

theorem eval_of_getIntMaybe {obj : IntObj} (isInt : getIntMaybe node = some obj) :
    eval m node = pure (.int obj) := by
  cases node with
  | smallInt val =>
    cases isInt
    rfl
  | constObject obj =>
    cases isInt
    rfl
  | _ => cases isInt

theorem eval_intNode (obj : IntObj) : eval m (intNode obj) = pure (.int obj) := by
  cases obj <;> rfl

theorem eval_of_isConstTrue (isConst : isConstTrue node = true) :
    ∃ value, eval m node = pure value ∧ mpObjIsTrue m value = pure true := by
  cases node with
  | token kind =>
    obtain rfl : kind = .kwTrue := by simpa [isConstTrue] using isConst
    exact ⟨.bool true, rfl, rfl⟩
  | smallInt val =>
    have nonzero : val ≠ 0 := by simpa [isConstTrue] using isConst
    exact ⟨.int (.small val), rfl, by simp [mpObjIsTrue, IntObj.sign, nonzero]⟩
  | _ => cases isConst

theorem eval_of_isConstFalse (isConst : isConstFalse node = true) :
    ∃ value, eval m node = pure value ∧ mpObjIsTrue m value = pure false := by
  cases node with
  | token kind =>
    obtain rfl : kind = .kwFalse := by simpa [isConstFalse] using isConst
    exact ⟨.bool false, rfl, rfl⟩
  | smallInt val =>
    obtain rfl : val = 0 := by simpa [isConstFalse] using isConst
    exact ⟨.int (.small 0), rfl, rfl⟩
  | _ => cases isConst

/-! ## Logical operators -/

/-- The arguments that are left of a logical operator. -/
def shortened (isOr : Bool) : List (ParseNode α) → List (ParseNode α)
  | [] => []
  | [last] => [last]
  | node :: rest =>
    if stops isOr node then [node]
    else if drops isOr node then shortened isOr rest
    else node :: shortened isOr rest

theorem shortened_cons (isOr : Bool) (node next : ParseNode α) (rest : List (ParseNode α)) :
    shortened isOr (node :: next :: rest) =
      if stops isOr node then [node]
      else if drops isOr node then shortened isOr (next :: rest)
      else node :: shortened isOr (next :: rest) := rfl

variable {isOr : Bool}

theorem eval_of_stops (isConst : stops isOr node = true) :
    ∃ value, eval m node = pure value ∧ mpObjIsTrue m value = pure isOr := by
  cases isOr with
  | true => exact eval_of_isConstTrue isConst
  | false => exact eval_of_isConstFalse isConst

theorem eval_of_drops (isConst : drops isOr node = true) :
    ∃ value, eval m node = pure value ∧ mpObjIsTrue m value = pure !isOr := by
  cases isOr with
  | true => exact eval_of_isConstFalse isConst
  | false => exact eval_of_isConstTrue isConst

variable {nodes : List (ParseNode α)}

theorem shortened_ne_nil (isOr : Bool) (some_ : nodes ≠ []) : shortened isOr nodes ≠ [] := by
  induction nodes with
  | nil => exact absurd rfl some_
  | cons node rest ih =>
    cases rest with
    | nil => exact some_
    | cons next rest =>
      rw [shortened_cons]
      split_ifs
      · exact cons_ne_nil _ _
      · exact ih (cons_ne_nil _ _)
      · exact cons_ne_nil _ _

theorem evalLogical_more (isOr : Bool) (part : Run α ε ω (Obj ο)) {rest : List (Run α ε ω (Obj ο))}
    (more : rest ≠ []) : evalLogical m isOr (part :: rest) = (do
      let value ← part
      if (← mpObjIsTrue m value) = isOr then pure value else evalLogical m isOr rest) := by
  cases rest with
  | nil => exact absurd rfl more
  | cons next rest => rfl

theorem evalLogical_shortened (isOr : Bool) (nodes : List (ParseNode α)) :
    evalLogical m isOr ((shortened isOr nodes).map (eval m)) =
      evalLogical m isOr (nodes.map (eval m)) := by
  induction nodes with
  | nil => rfl
  | cons node rest ih =>
    cases rest with
    | nil => rfl
    | cons next rest =>
      have more : ((next :: rest).map (eval m)) ≠ [] := cons_ne_nil _ _
      rw [shortened_cons, map_cons, evalLogical_more isOr _ more]
      split_ifs with stop drop
      · obtain ⟨value, isValue, isTrue⟩ := eval_of_stops (m := m) stop
        rw [isValue, pure_bind, isTrue, pure_bind, if_pos rfl, map_cons, isValue]
        rfl
      · obtain ⟨value, isValue, isTrue⟩ := eval_of_drops (m := m) drop
        rw [isValue, pure_bind, isTrue, pure_bind, if_neg (by simp), ih]
      · have left : (shortened isOr (next :: rest)).map (eval m) ≠ [] := by
          rw [Ne, map_eq_nil_iff]
          exact shortened_ne_nil isOr (cons_ne_nil _ _)
        rw [map_cons, evalLogical_more isOr _ left, ih]

/-- The loop leaves these arguments, above `copy_to - 1` nodes that are to be popped. -/
theorem foldLogicalLoop_spec (isOr : Bool) {rest : List (ParseNode α)} {front back : Stack α}
    (some_ : rest ≠ []) (onTop : rest.reverse <+: front) :
    ∃ copyTo stack, foldLogicalLoop isOr rest.length front.length (front ++ back) = (copyTo + 1, stack) ∧
      stack.drop copyTo = (shortened isOr rest).reverse ++ back ∧
      copyTo + (shortened isOr rest).length = front.length := by
  induction rest generalizing front back with
  | nil => exact absurd rfl some_
  | cons node rest ih =>
    obtain ⟨junk, rfl⟩ := onTop
    -- The node is stored in the last of the places that are not filled yet.
    obtain ⟨init, place, isLast⟩ : ∃ init place, (node :: rest).reverse ++ junk = init ++ [place] := by
      have filled : (node :: rest).reverse ++ junk ≠ [] := by simp
      exact ⟨_, _, (dropLast_append_getLast filled).symm⟩
    have lengths : init.length = rest.length + junk.length := by
      have both := congrArg length isLast
      simp only [length_append, length_reverse, length_cons, length_nil] at both
      omega
    have onTop : rest.reverse <+: init := by
      have longer : rest.reverse <+: init ++ [place] := by
        rw [← isLast, reverse_cons, append_assoc]
        exact prefix_append _ _
      exact prefix_of_prefix_length_le longer (prefix_append _ _)
        (by rw [length_reverse]; omega)
    have peeked : peekResult ((node :: rest).reverse ++ junk ++ back) rest.length = node := by
      rw [append_assoc, reverse_cons, append_assoc]
      exact peek_behind rest node _
    have stored : ((node :: rest).reverse ++ junk ++ back).set
        (((node :: rest).reverse ++ junk).length - 1) node = init ++ node :: back := by
      rw [isLast, length_append, length_singleton, Nat.add_sub_cancel, append_assoc]
      simp
    have total : ((node :: rest).reverse ++ junk).length = init.length + 1 := by
      rw [isLast, length_append, length_singleton]
    rw [length_cons, foldLogicalLoop]
    simp only [peeked, stored]
    rw [total, Nat.add_sub_cancel]
    have onlyNode : (init ++ node :: back).drop init.length = [node].reverse ++ back :=
      drop_left
    cases rest with
    | nil => exact ⟨init.length, _, rfl, onlyNode, rfl⟩
    | cons next rest =>
      rw [if_neg (by simp), shortened_cons]
      split_ifs with stop drop
      · exact ⟨init.length, _, rfl, onlyNode, rfl⟩
      · have dropped := @ih (init ++ [node]) back (cons_ne_nil _ _)
          (onTop.trans (prefix_append _ _))
        rwa [append_assoc, length_append] at dropped
      · obtain ⟨copyTo, stack, loop, left, kept⟩ :=
          @ih init (node :: back) (cons_ne_nil _ _) onTop
        refine ⟨copyTo, stack, loop, ?_, ?_⟩
        · rw [left, reverse_cons, append_assoc]
          rfl
        · rw [length_cons]
          omega

theorem foldLogical_spec (isOr : Bool) {args : List (ParseNode α)} (some_ : args ≠ [])
    (below : Stack α) :
    foldLogical isOr (args.reverse ++ below) args.length =
      (decide ((shortened isOr args).length = 1), (shortened isOr args).reverse ++ below,
        (shortened isOr args).length) := by
  obtain ⟨copyTo, stack, loop, left, kept⟩ :=
    @foldLogicalLoop_spec _ isOr args args.reverse below some_ (prefix_refl _)
  rw [length_reverse] at loop kept
  have count : args.length - copyTo = (shortened isOr args).length := by omega
  simp only [foldLogical, loop, Nat.add_sub_cancel, count, left]

/-! ## Arithmetic -/

variable {op : BinaryOp}

theorem compileTermOp_of_tokenToOp {tok : TokenKind} (isOp : tokenToOp tok = some op) :
    compileTermOp tok = op ∧ op ≠ .trueDivide := by
  cases tok <;> first
    | cases isOp
      exact ⟨rfl, by decide⟩
    | cases isOp

theorem mpBinaryOp_int (inner : op ≠ .trueDivide) {lhs rhs val : IntObj}
    (gives : m.intBinary op lhs rhs = .ok val) :
    mpBinaryOp m op (.int lhs) (.int rhs) = pure (.int val) := by
  rw [mpBinaryOp, if_neg inner, gives]
  rfl

theorem foldBinaryLoop_spec (inner : op ≠ .trueDivide) {rest : List (ParseNode α)} {below : Stack α}
    {arg0 val : IntObj}
    (folds : foldBinaryLoop m op (rest.reverse ++ below) rest.length arg0 = .ok (some val)) :
    ((rest.map (eval m)).foldlM (fun lhs part => do mpBinaryOp m op lhs (← part)) (.int arg0)) =
      (pure (.int val) : Run α ε ω (Obj ο)) := by
  induction rest generalizing below arg0 with
  | nil =>
    cases folds
    rfl
  | cons node rest ih =>
    rw [reverse_cons, append_assoc, length_cons, foldBinaryLoop] at folds
    have peeked : peekResult (rest.reverse ++ ([node] ++ below)) rest.length = node :=
      peek_behind rest node below
    rw [peeked] at folds
    cases isInt : getIntMaybe node with
    | none =>
      rw [isInt] at folds
      cases folds
    | some arg1 =>
      simp only [isInt] at folds
      cases gives : m.intBinary op arg0 arg1 with
      | error raised =>
        rw [gives] at folds
        cases folds
      | ok next =>
        rw [gives] at folds
        rw [map_cons, foldlM_cons, eval_of_getIntMaybe isInt, pure_bind,
          mpBinaryOp_int inner gives, pure_bind]
        exact ih folds

variable {rest : List (TokenKind × ParseNode α)}

theorem foldTermLoop_spec {below : Stack α} {arg0 val : IntObj}
    (folds : foldTermLoop m ((rest.flatMap operation).reverse ++ below)
      (rest.flatMap operation).length arg0 = .ok (some val)) :
    evalTerm m (.int arg0) (evalAll m (rest.flatMap operation)) = pure (.int val) := by
  induction rest generalizing below arg0 with
  | nil =>
    cases folds
    rfl
  | cons pair rest ih =>
    obtain ⟨tok, node⟩ := pair
    let flat := rest.flatMap operation
    have split : ((tok, node) :: rest).flatMap operation = .token tok :: node :: flat := rfl
    have stack : (.token tok :: node :: flat).reverse ++ below =
        flat.reverse ++ node :: .token tok :: below := by simp
    have operand : peekResult (flat.reverse ++ node :: .token tok :: below) flat.length = node :=
      peek_behind flat node _
    have operator : peekResult (flat.reverse ++ node :: .token tok :: below) (flat.length + 1) =
        .token tok := by
      have behind := peek_behind (node :: flat) (.token tok) below
      rwa [reverse_cons, append_assoc] at behind
    rw [split, stack, length_cons, length_cons, foldTermLoop, operand, operator] at folds
    rw [split]
    cases isInt : getIntMaybe node with
    | none =>
      rw [isInt] at folds
      cases folds
    | some arg1 =>
      cases isOp : tokenToOp tok with
      | none =>
        simp only [isInt, ParseNode.token?, Option.bind_some, isOp] at folds
        cases folds
      | some op =>
        simp only [isInt, ParseNode.token?, Option.bind_some, isOp] at folds
        split_ifs at folds with refused
        · cases folds
        · cases gives : m.intBinary op arg0 arg1 with
          | error raised =>
            rw [gives] at folds
            cases folds
          | ok next =>
            rw [gives] at folds
            obtain ⟨same, inner⟩ := compileTermOp_of_tokenToOp isOp
            rw [evalAll, evalAll, ParseNode.token?, evalTerm, eval_of_getIntMaybe isInt,
              same, pure_bind, mpBinaryOp_int inner gives, pure_bind]
            exact ih folds

/-! ## One rule -/

theorem evalAll_eq (nodes : List (ParseNode α)) :
    evalAll m nodes = nodes.map fun node => (node.token?, eval m node) := by
  induction nodes with
  | nil => rfl
  | cons node nodes ih => rw [evalAll, ih, map_cons]

theorem evalAll_snd (nodes : List (ParseNode α)) : (evalAll m nodes).map Prod.snd = nodes.map (eval m) := by
  rw [evalAll_eq, map_map]
  rfl

theorem evalRule_logical (isOr : Bool) (nodes : List (ParseNode α)) :
    evalRule m (logicalRule isOr) (evalAll m nodes) = evalLogical m isOr (nodes.map (eval m)) := by
  cases isOr with
  | true => rw [← evalAll_snd]; rfl
  | false => rw [← evalAll_snd]; rfl

variable {args : List (ParseNode α)} {below after : Stack α}

theorem pushResultRule_logical (some_ : args ≠ [])
    (pushed : pushResultRule m true (logicalRule isOr) args.length (args.reverse ++ below) = .ok after) :
    ∃ node, after = node :: below ∧ eval m node = evalRule m (logicalRule isOr) (evalAll m args) := by
  have folds : foldLogicalConstants (logicalRule isOr) (args.reverse ++ below) args.length =
      foldLogical isOr (args.reverse ++ below) args.length := by cases isOr <;> rfl
  rw [foldLogical_spec isOr some_ below] at folds
  have noInt (stack : Stack α) (numArgs : Nat) :
      foldConstants m (logicalRule isOr) stack numArgs = .ok none := by
    cases isOr <;> rfl
  obtain ⟨taken, left⟩ := takes_args (shortened isOr args) below
  simp only [pushResultRule, if_true, folds, decide_eq_true_eq, noInt, taken, left] at pushed
  split_ifs at pushed with one
  · obtain ⟨last, isLast⟩ := length_eq_one_iff.mp one
    have same := evalLogical_shortened (m := m) isOr args
    rw [isLast] at pushed same
    cases pushed
    refine ⟨last, rfl, ?_⟩
    rw [evalRule_logical, ← same]
    rfl
  · cases pushed
    refine ⟨_, rfl, ?_⟩
    rw [eval, evalRule_logical, evalRule_logical, evalLogical_shortened]

variable {id : Rule}

theorem pushResultRule_int (noLogic : foldLogicalConstants id (args.reverse ++ below) args.length =
      (false, args.reverse ++ below, args.length))
    (gives : ∀ val, foldedInt m id (args.reverse ++ below) args.length = .ok (some val) →
      evalRule m id (evalAll m args) = pure (.int val))
    (pushed : pushResultRule m true id args.length (args.reverse ++ below) = .ok after) :
    ∃ node, after = node :: below ∧ eval m node = evalRule m id (evalAll m args) := by
  obtain ⟨taken, left⟩ := takes_args args below
  simp only [pushResultRule, if_true, noLogic, Bool.false_eq_true, if_false, foldConstants, taken,
    left] at pushed
  cases folded : foldedInt m id (args.reverse ++ below) args.length with
  | error raised =>
    rw [folded] at pushed
    cases pushed
  | ok result =>
    rw [folded] at pushed
    cases result with
    | none =>
      cases pushed
      exact ⟨_, rfl, by rw [eval]⟩
    | some val =>
      cases pushed
      exact ⟨_, rfl, by rw [eval_intNode, gives val folded]⟩

theorem evalRule_binary (isBinary : id.binaryOp? = some op) (nodes : List (ParseNode α)) :
    evalRule m id (evalAll m nodes) = evalBinary m op (nodes.map (eval m)) := by
  rw [← evalAll_snd]
  cases id <;> first
    | cases isBinary
      rfl
    | cases isBinary

theorem evalRule_term (isTerm : id.isTerm) (first : ParseNode α)
    (rest : List (TokenKind × ParseNode α)) :
    evalRule m id (evalAll m (first :: rest.flatMap operation)) = (do
      let lhs ← eval m first
      evalTerm m lhs (evalAll m (rest.flatMap operation))) := by
  rcases isTerm with rfl | rfl | rfl <;> rfl

variable {val : IntObj}

theorem foldedInt_binary (isBinary : id.binaryOp? = some op) (some_ : args ≠ [])
    (folds : foldedInt m id (args.reverse ++ below) args.length = .ok (some val)) :
    evalRule m id (evalAll m args) = pure (.int val) := by
  obtain ⟨first, rest, rfl⟩ := exists_cons_of_ne_nil some_
  have rule : foldedInt m id ((first :: rest).reverse ++ below) (first :: rest).length =
      (match getIntMaybe (peekResult ((first :: rest).reverse ++ below) rest.length) with
        | none => .ok none
        | some arg0 => foldBinaryLoop m op ((first :: rest).reverse ++ below) rest.length arg0) ∧
      op ≠ .trueDivide := by
    cases id <;> first
      | cases isBinary
        exact ⟨rfl, by decide⟩
      | cases isBinary
  obtain ⟨isRule, inner⟩ := rule
  have peeked : peekResult ((first :: rest).reverse ++ below) rest.length = first := by
    rw [reverse_cons, append_assoc]
    exact peek_behind rest first below
  rw [isRule, peeked] at folds
  cases isInt : getIntMaybe first with
  | none =>
    rw [isInt] at folds
    cases folds
  | some arg0 =>
    simp only [isInt, reverse_cons, append_assoc] at folds
    rw [evalRule_binary isBinary, map_cons, evalBinary, eval_of_getIntMaybe isInt, pure_bind]
    exact foldBinaryLoop_spec inner folds

theorem foldedInt_term (isTerm : id.isTerm) {first : ParseNode α}
    (folds : foldedInt m id ((first :: rest.flatMap operation).reverse ++ below)
      (first :: rest.flatMap operation).length = .ok (some val)) :
    evalRule m id (evalAll m (first :: rest.flatMap operation)) = pure (.int val) := by
  have rule : foldedInt m id ((first :: rest.flatMap operation).reverse ++ below)
        (first :: rest.flatMap operation).length =
      (match getIntMaybe (peekResult ((first :: rest.flatMap operation).reverse ++ below)
          (rest.flatMap operation).length) with
        | none => .ok none
        | some arg0 => foldTermLoop m ((first :: rest.flatMap operation).reverse ++ below)
            (rest.flatMap operation).length arg0) := by
    rcases isTerm with rfl | rfl | rfl <;> rfl
  have peeked : peekResult ((first :: rest.flatMap operation).reverse ++ below)
      (rest.flatMap operation).length = first := by
    rw [reverse_cons, append_assoc]
    exact peek_behind _ first below
  rw [rule, peeked] at folds
  cases isInt : getIntMaybe first with
  | none =>
    rw [isInt] at folds
    cases folds
  | some arg0 =>
    simp only [isInt, reverse_cons, append_assoc] at folds
    rw [evalRule_term isTerm, eval_of_getIntMaybe isInt, pure_bind]
    exact foldTermLoop_spec folds

theorem foldedInt_factor {tok : TokenKind}
    (folds : foldedInt m .factor2 (node :: .token tok :: below) 2 = .ok (some val)) :
    evalRule m .factor2 (evalAll m [.token tok, node]) = pure (.int val) := by
  have rule : foldedInt m .factor2 (node :: .token tok :: below) 2 =
      (match getIntMaybe node, some tok with
        | some arg0, some tok => (m.intUnary (factorOp tok) arg0).map some
        | _, _ => .ok none) := rfl
  rw [rule] at folds
  cases isInt : getIntMaybe node with
  | none =>
    rw [isInt] at folds
    cases folds
  | some arg0 =>
    simp only [isInt] at folds
    have evals : evalRule m .factor2 (evalAll m [.token tok, node]) =
        (do mpUnaryOp m (factorOp tok) (← eval m node)) := rfl
    rw [evals, eval_of_getIntMaybe isInt, pure_bind, mpUnaryOp]
    cases gives : m.intUnary (factorOp tok) arg0 with
    | error raised =>
      rw [gives] at folds
      cases folds
    | ok next =>
      rw [gives] at folds
      cases folds
      rfl

theorem pushResultRule_not (pushed : pushResultRule m true .notTest2 1 (node :: below) = .ok after) :
    ∃ built, after = built :: below ∧ eval m built = evalRule m .notTest2 (evalAll m [node]) := by
  have evals : evalRule m .notTest2 (evalAll m [node]) =
      (do return .bool !(← mpObjIsTrue m (← eval m node))) := rfl
  have noInt (stack : Stack α) (numArgs : Nat) :
      foldConstants m .notTest2 stack numArgs = .ok none := rfl
  have peeked : peekResult (node :: below) 0 = node := rfl
  simp only [pushResultRule, if_true, foldLogicalConstants, peeked, drop_succ_cons,
    drop_zero] at pushed
  by_cases isFalse : isConstFalse node = true
  · obtain ⟨value, isValue, notTrue⟩ := eval_of_isConstFalse (m := m) isFalse
    simp only [isFalse, if_true] at pushed
    cases pushed
    refine ⟨_, rfl, ?_⟩
    rw [evals, isValue, pure_bind, notTrue, pure_bind]
    rfl
  · by_cases isTrue : isConstTrue node = true
    · obtain ⟨value, isValue, truth⟩ := eval_of_isConstTrue (m := m) isTrue
      simp only [isFalse, isTrue, if_true] at pushed
      cases pushed
      refine ⟨_, rfl, ?_⟩
      rw [evals, isValue, pure_bind, truth, pure_bind]
      rfl
    · simp only [isFalse, isTrue] at pushed
      cases pushed
      exact ⟨_, rfl, rfl⟩

/-! ## Whole trees -/

/-- The parser pushes one node for the tree, which does the same. -/
def Keeps (m : Runtime α ο ε ω) (tree : ParseNode α) : Prop :=
  ∀ ⦃below after : Stack α⦄, pushTree m true tree below = .ok after →
    ∃ built, after = built :: below ∧ eval m built = eval m tree

theorem pushTrees_cons (pushed : pushTrees m true (node :: nodes) below = .ok after) :
    ∃ next, pushTree m true node below = .ok next ∧ pushTrees m true nodes next = .ok after := by
  rw [pushTrees] at pushed
  cases first : pushTree m true node below with
  | error raised =>
    rw [first] at pushed
    cases pushed
  | ok next =>
    rw [first] at pushed
    exact ⟨next, rfl, pushed⟩

theorem pushTrees_keeps (keeps : ∀ node ∈ nodes, Keeps m node)
    (pushed : pushTrees m true nodes below = .ok after) :
    ∃ built : List (ParseNode α), after = built.reverse ++ below ∧
      built.map (eval m) = nodes.map (eval m) := by
  induction nodes generalizing below with
  | nil =>
    cases pushed
    exact ⟨[], rfl, rfl⟩
  | cons node nodes ih =>
    obtain ⟨keepsNode, keeps⟩ := forall_mem_cons.mp keeps
    obtain ⟨next, first, pushed⟩ := pushTrees_cons pushed
    obtain ⟨builtNode, rfl, same⟩ := keepsNode first
    obtain ⟨built, rfl, others⟩ := ih keeps pushed
    refine ⟨builtNode :: built, ?_, ?_⟩
    · rw [reverse_cons, append_assoc]
      rfl
    · rw [map_cons, map_cons, same, others]

theorem pushTrees_operations (keeps : ∀ pair ∈ rest, Keeps m pair.2)
    (pushed : pushTrees m true (rest.flatMap operation) below = .ok after) :
    ∃ built : List (TokenKind × ParseNode α), after = (built.flatMap operation).reverse ++ below ∧
      built.map (fun pair => (pair.1, eval m pair.2)) =
        rest.map (fun pair => (pair.1, eval m pair.2)) := by
  induction rest generalizing below with
  | nil =>
    cases pushed
    exact ⟨[], rfl, rfl⟩
  | cons pair rest ih =>
    obtain ⟨tok, node⟩ := pair
    obtain ⟨keepsNode, keeps⟩ := forall_mem_cons.mp keeps
    obtain ⟨next, leaf, pushed⟩ := pushTrees_cons pushed
    cases leaf
    obtain ⟨next, first, pushed⟩ := pushTrees_cons pushed
    obtain ⟨builtNode, rfl, same⟩ := keepsNode first
    obtain ⟨built, rfl, others⟩ := ih keeps pushed
    refine ⟨(tok, builtNode) :: built, ?_, ?_⟩
    · rw [flatMap_cons, reverse_append, append_assoc]
      rfl
    · rw [map_cons, map_cons, others, same]

theorem length_operations (pairs : List (TokenKind × ParseNode α)) :
    (pairs.flatMap operation).length = 2 * pairs.length := by
  induction pairs with
  | nil => rfl
  | cons pair pairs ih =>
    rw [flatMap_cons, length_append, ih, length_cons, Nat.mul_add,
      Nat.add_comm]
    rfl

/-- The code for a rule depends on its arguments only by what they do, but for the operators. -/
theorem evalTerm_congr {built rest : List (TokenKind × ParseNode α)}
    (same : built.map (fun pair => (pair.1, eval m pair.2)) =
      rest.map (fun pair => (pair.1, eval m pair.2))) (lhs : Obj ο) :
    evalTerm m lhs (evalAll m (built.flatMap operation)) =
      evalTerm m lhs (evalAll m (rest.flatMap operation)) := by
  induction built generalizing rest lhs with
  | nil =>
    obtain rfl : rest = [] := map_eq_nil_iff.mp same.symm
    rfl
  | cons pair built ih =>
    cases rest with
    | nil => cases same
    | cons other rest =>
      obtain ⟨tok, node⟩ := pair
      obtain ⟨otherTok, otherNode⟩ := other
      simp only [map_cons, cons.injEq, Prod.mk.injEq] at same
      obtain ⟨⟨rfl, sameNode⟩, same⟩ := same
      have step (node : ParseNode α) (rest : List (TokenKind × ParseNode α)) :
          evalTerm m lhs (evalAll m (((tok, node) :: rest).flatMap operation)) =
            (do
              let rhs ← eval m node
              let val ← mpBinaryOp m (compileTermOp tok) lhs rhs
              evalTerm m val (evalAll m (rest.flatMap operation))) := rfl
      rw [step, step, sameNode]
      refine bind_congr fun rhs => bind_congr fun val => ?_
      exact ih same val

theorem pushTree_rule (pushed : pushTree m true (.rule id nodes) below = .ok after) :
    ∃ stack, pushTrees m true nodes below = .ok stack ∧
      pushResultRule m true id nodes.length stack = .ok after := by
  rw [pushTree] at pushed
  cases inner : pushTrees m true nodes below with
  | error raised =>
    rw [inner] at pushed
    cases pushed
  | ok stack =>
    rw [inner] at pushed
    exact ⟨stack, rfl, pushed⟩

theorem noLogic_binary (isBinary : id.binaryOp? = some op) (stack : Stack α) (numArgs : Nat) :
    foldLogicalConstants id stack numArgs = (false, stack, numArgs) := by
  cases id <;> first
    | rfl
    | cases isBinary

theorem noLogic_term (isTerm : id.isTerm) (stack : Stack α) (numArgs : Nat) :
    foldLogicalConstants id stack numArgs = (false, stack, numArgs) := by
  rcases isTerm with rfl | rfl | rfl <;> rfl

theorem keeps_list (keeps : ∀ node ∈ nodes, Keeps m node)
    (sameEval : ∀ built : List (ParseNode α), built.map (eval m) = nodes.map (eval m) →
      evalRule m id (evalAll m built) = evalRule m id (evalAll m nodes))
    (pushes : ∀ ⦃built : List (ParseNode α)⦄ ⦃below after : Stack α⦄, built.length = nodes.length →
      pushResultRule m true id built.length (built.reverse ++ below) = .ok after →
      ∃ node, after = node :: below ∧ eval m node = evalRule m id (evalAll m built)) :
    Keeps m (.rule id nodes) := by
  intro below after pushed
  obtain ⟨stack, inner, pushed⟩ := pushTree_rule pushed
  obtain ⟨built, rfl, same⟩ := pushTrees_keeps keeps inner
  have lengths : built.length = nodes.length := by simpa using congrArg length same
  rw [← lengths] at pushed
  obtain ⟨node, rfl, evals⟩ := pushes lengths pushed
  exact ⟨node, rfl, by rw [evals, eval, sameEval built same]⟩

theorem formed_keeps {tree : ParseNode α} (formed : Formed tree) : Keeps m tree := by
  induction formed with
  | smallInt val | constObject obj | token kind | other a =>
    intro below after pushed
    cases pushed
    exact ⟨_, rfl, rfl⟩
  | logical isOr some_ formed keeps =>
    refine keeps_list keeps ?_ fun built below after lengths pushed => ?_
    · intro built same
      rw [evalRule_logical, evalRule_logical, same]
    · refine pushResultRule_logical ?_ pushed
      exact ne_nil_of_length_pos (lengths ▸ length_pos_iff.mpr some_)
  | not formed keeps =>
    refine keeps_list (by simpa using keeps) ?_ fun built below after lengths pushed => ?_
    · intro built same
      obtain ⟨node, rfl⟩ := length_eq_one_iff.mp (by simpa using congrArg length same)
      have sameNode := (cons.inj same).1
      have evals (node : ParseNode α) : evalRule m .notTest2 (evalAll m [node]) =
          (do return .bool !(← mpObjIsTrue m (← eval m node))) := rfl
      rw [evals, evals, sameNode]
    · obtain ⟨node, rfl⟩ := length_eq_one_iff.mp lengths
      exact pushResultRule_not pushed
  | binary isBinary some_ formed keeps =>
    refine keeps_list keeps ?_ fun built below after lengths pushed => ?_
    · intro built same
      rw [evalRule_binary isBinary, evalRule_binary isBinary, same]
    · refine pushResultRule_int (noLogic_binary isBinary _ _) ?_ pushed
      intro val folds
      refine foldedInt_binary isBinary ?_ folds
      exact ne_nil_of_length_pos (lengths ▸ length_pos_iff.mpr some_)
  | term isTerm formed others keeps othersKeep =>
    intro below after pushed
    obtain ⟨stack, inner, pushed⟩ := pushTree_rule pushed
    obtain ⟨next, first, inner⟩ := pushTrees_cons inner
    obtain ⟨builtFirst, rfl, sameFirst⟩ := keeps first
    obtain ⟨built, rfl, same⟩ := pushTrees_operations othersKeep inner
    have lengths := congrArg length same
    rw [length_map, length_map] at lengths
    have stack : (built.flatMap operation).reverse ++ builtFirst :: below =
        (builtFirst :: built.flatMap operation).reverse ++ below := by simp
    rw [stack, length_cons, length_operations, ← lengths, ← length_operations,
      ← length_cons] at pushed
    obtain ⟨node, rfl, evals⟩ := pushResultRule_int (noLogic_term isTerm _ _)
      (fun val folds => foldedInt_term isTerm folds) pushed
    refine ⟨node, rfl, ?_⟩
    rw [evals, eval, evalRule_term isTerm, evalRule_term isTerm, sameFirst]
    exact bind_congr fun lhs => evalTerm_congr same lhs
  | factor tok formed keeps =>
    intro below after pushed
    obtain ⟨stack, inner, pushed⟩ := pushTree_rule pushed
    obtain ⟨next, leaf, inner⟩ := pushTrees_cons inner
    cases leaf
    obtain ⟨next, operand, inner⟩ := pushTrees_cons inner
    cases inner
    obtain ⟨builtNode, rfl, same⟩ := keeps operand
    obtain ⟨node, rfl, evals⟩ := @pushResultRule_int _ _ _ _ m [.token tok, builtNode] below after
      .factor2 rfl (fun val folds => foldedInt_factor folds) pushed
    have evalFactor (node : ParseNode α) : evalRule m .factor2 (evalAll m [.token tok, node]) =
        (do mpUnaryOp m (factorOp tok) (← eval m node)) := rfl
    exact ⟨node, rfl, by rw [evals, eval, evalFactor, evalFactor, same]⟩

/-- If the arithmetic of the folding does not raise, the tree that the parser builds with folding gives
the same value or raises the same exception as the one without, in every world, and evaluates the same
expressions in the same order. -/
theorem folding_preserves {tree folded : ParseNode α} (formed : Formed tree)
    (parsed : parseTree m true tree = .ok folded) :
    ∃ unfolded, parseTree m false tree = .ok unfolded ∧ eval m folded = eval m unfolded := by
  refine ⟨tree, by rw [parseTree, pushTree_unfolded]; rfl, ?_⟩
  rw [parseTree] at parsed
  cases pushed : pushTree m true tree [] with
  | error raised =>
    rw [pushed] at parsed
    cases parsed
  | ok stack =>
    obtain ⟨built, rfl, same⟩ := formed_keeps formed pushed
    rw [pushed] at parsed
    cases parsed
    exact same

end Runtime

/-! ## An expression -/

def IntObj.val : IntObj → Int
  | .small val | .big val => val

/-- Integers that are added and multiplied, and names that stand for themselves. -/
def sampleRuntime : Runtime String String Unit Unit where
  intBinary op lhs rhs :=
    match op with
    | .add => .ok (.small (lhs.val + rhs.val))
    | .multiply => .ok (.small (lhs.val * rhs.val))
    | _ => .error ()
  intUnary op obj :=
    match op with
    | .positive => .ok obj
    | .negative => .ok (.small (-obj.val))
    | .invert => .ok (.small (-obj.val - 1))
  binary _ _ _ := throw ()
  unary _ _ := throw ()
  isTrue _ := pure true
  other name := pure (.other name)
  token _ := ""

/-- `0 or x or -2 + 3 * 4 or y` -/
def sampleTree : ParseNode String :=
  .rule .orTest [.smallInt 0, .other "x",
    .rule .arithExpr [.rule .factor2 [.token .opMinus, .smallInt 2], .token .opPlus,
      .rule .term [.smallInt 3, .token .opStar, .smallInt 4]],
    .other "y"]

theorem sampleTree_formed : Formed sampleTree := by
  have product : Formed (.rule .term
      ((.smallInt 3 : ParseNode String) :: [(.opStar, .smallInt 4)].flatMap operation)) := by
    refine .term (.inr (.inr rfl)) (.smallInt 3) ?_
    rintro pair (_ | ⟨_, none⟩)
    · exact .smallInt 4
    · cases none
  have sum : Formed (.rule .arithExpr
      ((.rule .factor2 [.token .opMinus, .smallInt 2] : ParseNode String) ::
        [(.opPlus, .rule .term [.smallInt 3, .token .opStar, .smallInt 4])].flatMap operation)) := by
    refine .term (.inr (.inl rfl)) (.factor .opMinus (.smallInt 2)) ?_
    rintro pair (_ | ⟨_, none⟩)
    · exact product
    · cases none
  refine .logical true (cons_ne_nil _ _) ?_
  simp only [forall_mem_cons]
  exact ⟨.smallInt 0, .other "x", sum, .other "y", fun _ none => absurd none not_mem_nil⟩

theorem folding_preserves_sample : ∃ unfolded,
    parseTree sampleRuntime false sampleTree = .ok unfolded ∧
      eval sampleRuntime (.rule .orTest [.other "x", .smallInt 10]) = eval sampleRuntime unfolded :=
  folding_preserves sampleTree_formed rfl

end MultiPython.Parse
