import Mathlib.Data.List.Basic
import Mathlib.Tactic

/-!
# Constants that the parser knows

`const()` of `py/parse.c`: the table that is filled while the text is parsed, the names that are
replaced from it, and the statements that are. A program is the statements of a module in their
order. What its other statements do with the values they read is left open; what runs before a
statement has only the code of the statements up to this one.
-/

namespace MultiPython.Parse

open List Option

/-! ## The text of a module -/

/-- Where a name stands: alone in an expression, before the sign of a keyword argument, or in a
decorator. -/
inductive Place where
  | atom | keyword | decorator
deriving DecidableEq

/-- A name with its place. -/
structure Use where
  name : String
  place : Place
deriving DecidableEq

/-- The statements of a module: `name = const(value)`, where the value is an integer expression with
the names of other constants, and all others, of which only the names matter that are used in them. -/
inductive Statement where
  | const (name : String) (args : List String) (value : List Int → Int)
  | other (uses : List Use)

/-- The name starts with an underscore. -/
def isPrivate (name : String) : Bool := name.toList.head? = some '_'

/-! ## The parser and the compiler -/

/-- The table `consts` of the parser, which is also what the globals have for these names. -/
abbrev Consts : Type := List (String × Int)

/-- The node of a name: itself or an integer. -/
inductive NameNode where
  | id (name : String)
  | int (value : Int)
deriving DecidableEq

/-- `push_result_token` for a name. Only standalone identifiers are looked up in the table; the name
of a keyword argument is parsed as one. -/
def pushResultToken (consts : Consts) (place : Place) (name : String) : NameNode :=
  if place = .decorator then .id name
  else
    match consts.lookup name with
    | some value => .int value
    | none => .id name

/-- What the code has for a name. -/
inductive Operand where
  | loadConst (value : Int)
  | loadName (name : String)
  | keyword (name : String)
deriving DecidableEq

/-- The code for a name. A keyword must be an identifier. -/
def compileName : Place → NameNode → Option Operand
  | .keyword, .id name => some (.keyword name)
  | .keyword, .int _ => none
  | _, .id name => some (.loadName name)
  | _, .int value => some (.loadConst value)

/-- The code of a statement. -/
inductive Code where
  | store (name : String) (operands : List Operand) (value : List Int → Int)
  | pass
  | other (operands : List Operand)

/-- A statement as `fold_constants` leaves it, or nothing for a syntax error. -/
def parseStatement (consts : Consts) : Statement → Option Code
  | .const name args value =>
    match pushResultToken consts .atom name with
    -- There is an integer on the left side.
    | .int _ => none
    | .id name => do
        -- The constant must be an integer.
        let values ← args.mapM fun arg => consts.lookup arg
        return if isPrivate name then .pass else .store name [] fun _ => value values
  | .other uses => do
      return .other (← uses.mapM fun use =>
        compileName use.place (pushResultToken consts use.place use.name))

/-- What a statement adds to the table. -/
def declare (consts : Consts) : Statement → Consts
  | .const name args value => (name, value (args.filterMap fun arg => consts.lookup arg)) :: consts
  | .other _ => consts

/-- The parser on the statements of a module. -/
def parseModule (consts : Consts) : List Statement → Option (List Code)
  | [] => some []
  | statement :: rest => do
      let code ← parseStatement consts statement
      return code :: (← parseModule (declare consts statement) rest)

/-- The table in front of the rest of a text. -/
def declared (text : List Statement) : Consts := text.foldl declare []

/-- The code for a name that the parser does not know. -/
def plainOperand (use : Use) : Operand :=
  if use.place = .keyword then .keyword use.name else .loadName use.name

/-- The code for the text with `value` in place of `const(value)`. -/
def plainStatement : Statement → Code
  | .const name args value => .store name (args.map .loadName) value
  | .other uses => .other (uses.map plainOperand)

/-! ## Runs -/

/-- What reading a name gives. -/
inductive Answer (β : Type) where
  | int (value : Int)
  | builtin (object : β)
  | nameError

/-- What the code of the other statements does next: it reads a name that stands in a statement so
far back, or one that it has made up, it does something that no constant has a part in, it is
done, or it ends the module. -/
inductive Action (σ β : Type) where
  | read (back pos : Nat) (continue_ : Answer β → σ)
  | lookup (name : String) (continue_ : Answer β → σ)
  | step (next : σ)
  | done (next : σ)
  | stop

/-- The module while it runs: the statement, the constants among the globals, and everything else. -/
structure ModuleState (σ : Type) where
  statement : Nat
  globals : Consts
  rest : σ

section Runs

variable {σ β : Type}

/-- The code of the other statements, and the builtin names. -/
structure Control (σ β : Type) where
  action : σ → Action σ β
  builtins : String → Option β

variable (control : Control σ β)

/-- A name is looked up in the globals, then in the builtins. -/
def loadName (globals : Consts) (name : String) : Answer β :=
  match globals.lookup name with
  | some value => .int value
  | none =>
    match control.builtins name with
    | some object => .builtin object
    | none => .nameError

def Code.operands : Code → List Operand
  | .other operands => operands
  | _ => []

/-- What the code reads; there is nothing to be read for a keyword. -/
def answer (globals : Consts) : Option Operand → Answer β
  | some (.loadConst value) => .int value
  | some (.loadName name) => loadName control globals name
  | _ => .nameError

/-- The integers that the globals have for operands. -/
def integers (globals : Consts) (operands : List Operand) : Option (List Int) :=
  operands.mapM fun operand =>
    match answer control globals (some operand) with
    | .int value => some value
    | _ => none

/-- One step of a module; nothing when it has ended. -/
def stepModule (code : List Code) (s : ModuleState σ) : Option (ModuleState σ) :=
  match code[s.statement]? with
  | none => none
  | some (.store name operands value) =>
    (integers control s.globals operands).map fun values =>
      { s with statement := s.statement + 1, globals := (name, value values) :: s.globals }
  | some .pass => some { s with statement := s.statement + 1 }
  | some (.other _) =>
    match control.action s.rest with
    | .read back pos continue_ =>
      let operand := (code[s.statement - back]?).bind fun code => code.operands[pos]?
      some { s with rest := continue_ (answer control s.globals operand) }
    | .lookup name continue_ =>
      some { s with rest := continue_ (loadName control s.globals name) }
    | .step next => some { s with rest := next }
    | .done next => some { s with statement := s.statement + 1, rest := next }
    | .stop => none

/-- The module after some steps. -/
def runModule (code : List Code) (start : σ) : Nat → Option (ModuleState σ)
  | 0 => some ⟨0, [], start⟩
  | steps + 1 => (runModule code start steps).bind (stepModule control code)

/-! ## The table -/

variable {text : List Statement}

theorem declared_take {i : Nat} {statement : Statement} (here : text[i]? = some statement) :
    declared (text.take (i + 1)) = declare (declared (text.take i)) statement := by
  rw [declared, take_add_one, here, foldl_append]
  rfl

variable {consts : Consts}

theorem parseModule_get {code : List Code} (parsed : parseModule consts text = some code) (i : Nat) :
    text[i]? = none ∧ code[i]? = none ∨
      ∃ statement compiled, text[i]? = some statement ∧ code[i]? = some compiled ∧
        parseStatement ((text.take i).foldl declare consts) statement = some compiled := by
  induction text generalizing consts code i with
  | nil =>
    cases parsed
    exact Or.inl ⟨rfl, rfl⟩
  | cons statement rest ih =>
    obtain ⟨compiled, first, parsed⟩ := bind_eq_some_iff.mp parsed
    obtain ⟨others, later, isCode⟩ := bind_eq_some_iff.mp parsed
    cases isCode
    cases i with
    | zero => exact Or.inr ⟨statement, compiled, rfl, rfl, first⟩
    | succ i => exact ih later i

variable {name : String} {args : List String}

theorem parseStatement_const {value : List Int → Int} {code : Code}
    (parsed : parseStatement consts (.const name args value) = some code) :
    consts.lookup name = none ∧ ∃ values, args.mapM (fun arg => consts.lookup arg) = some values ∧
      code = if isPrivate name then .pass else .store name [] fun _ => value values := by
  rw [parseStatement, pushResultToken, if_neg (by decide)] at parsed
  cases found : consts.lookup name with
  | some other =>
    rw [found] at parsed
    cases parsed
  | none =>
    rw [found] at parsed
    obtain ⟨values, isValues, isCode⟩ := bind_eq_some_iff.mp parsed
    exact ⟨rfl, values, isValues, (some.inj isCode).symm⟩

theorem filterMap_of_mapM {values : List Int}
    (isValues : args.mapM (fun arg => consts.lookup arg) = some values) :
    args.filterMap (fun arg => consts.lookup arg) = values := by
  induction args generalizing values with
  | nil =>
    cases isValues
    rfl
  | cons arg args ih =>
    rw [mapM_cons] at isValues
    obtain ⟨value, first, isValues⟩ := bind_eq_some_iff.mp isValues
    obtain ⟨others, later, isValues⟩ := bind_eq_some_iff.mp isValues
    cases isValues
    rw [filterMap_cons, first, ih later]

theorem lookup_grows {code : List Code} (parsed : parseModule [] text = some code) {value : Int}
    {j i : Nat} (before : j ≤ i) (found : (declared (text.take j)).lookup name = some value) :
    (declared (text.take i)).lookup name = some value := by
  induction i, before using Nat.le_induction with
  | base => exact found
  | succ i before found =>
    rcases parseModule_get parsed i with ⟨ended, -⟩ | ⟨statement, compiled, here, -, compiles⟩
    · rwa [take_add_one, ended, toList_none, append_nil]
    · rw [declared_take here]
      cases statement with
      | other uses => exact found
      | const other args value =>
        obtain ⟨isNew, -⟩ := parseStatement_const compiles
        have notSame : name ≠ other := by
          rintro rfl
          rw [declared] at found
          rw [isNew] at found
          cases found
        rw [declare, lookup_cons, beq_eq_false_iff_ne.mpr notSame]
        exact found

/-! ## Names that start with an underscore -/

/-- The globals without the private names. -/
def visible (globals : Consts) : Consts := globals.filter fun entry => !isPrivate entry.1

theorem visible_cons (name : String) (value : Int) (globals : Consts) :
    visible ((name, value) :: globals) =
      if isPrivate name then visible globals else (name, value) :: visible globals := by
  rw [visible, filter_cons]
  cases isPrivate name <;> rfl

theorem lookup_visible (globals : Consts) (name : String) :
    (visible globals).lookup name = if isPrivate name then none else globals.lookup name := by
  induction globals with
  | nil => cases isPrivate name <;> rfl
  | cons entry globals ih =>
    obtain ⟨other, value⟩ := entry
    rw [visible_cons]
    by_cases same : name = other
    · subst same
      cases hidden : isPrivate name with
      | true =>
        rw [hidden] at ih
        exact ih
      | false => rw [if_neg Bool.false_ne_true, if_neg Bool.false_ne_true, lookup_cons_self,
          lookup_cons_self]
    · have differ : (name == other) = false := beq_eq_false_iff_ne.mpr same
      have skips (rest : Consts) : ((other, value) :: rest).lookup name = rest.lookup name := by
        rw [lookup_cons, differ]
      rw [skips, ← ih]
      split_ifs
      · rfl
      · exact skips _

/-- A name that is not private, or that is no global, is loaded with the same result. -/
theorem loadName_visible {globals : Consts}
    (shown : isPrivate name = true → globals.lookup name = none) :
    loadName control (visible globals) name = loadName control globals name := by
  have same : (visible globals).lookup name = globals.lookup name := by
    rw [lookup_visible]
    split_ifs with hidden
    · exact (shown hidden).symm
    · rfl
  rw [loadName, loadName, same]

/-- The state of a module without the private names. -/
def hidePrivate (s : ModuleState σ) : ModuleState σ := { s with globals := visible s.globals }

/-! ## One step -/

/-- What is read is read where the parser has replaced it, as far as it is a private constant that has
been declared: alone in an expression, and behind the declaration in the text. -/
def Replaced (text : List Statement) (s : ModuleState σ) : Prop :=
  match control.action s.rest with
  | .read back pos _ => ∀ uses use, text[s.statement - back]? = some (.other uses) →
      uses[pos]? = some use → isPrivate use.name = true → use.place ≠ .keyword →
      (declared (text.take s.statement)).lookup use.name ≠ none →
      use.place = .atom ∧ (declared (text.take (s.statement - back))).lookup use.name ≠ none
  | .lookup name _ => isPrivate name = true → (declared (text.take s.statement)).lookup name = none
  | _ => True

theorem mapM_get {γ δ : Type} {f : γ → Option δ} {xs : List γ} {ys : List δ}
    (mapped : xs.mapM f = some ys) (pos : Nat) :
    xs[pos]? = none ∧ ys[pos]? = none ∨
      ∃ x y, xs[pos]? = some x ∧ ys[pos]? = some y ∧ f x = some y := by
  induction xs generalizing ys pos with
  | nil =>
    cases mapped
    exact Or.inl ⟨rfl, rfl⟩
  | cons x xs ih =>
    rw [mapM_cons] at mapped
    obtain ⟨y, first, mapped⟩ := bind_eq_some_iff.mp mapped
    obtain ⟨others, later, mapped⟩ := bind_eq_some_iff.mp mapped
    cases mapped
    cases pos with
    | zero => exact Or.inr ⟨x, y, rfl, rfl, first⟩
    | succ pos => exact ih later pos

variable {text : List Statement} {code : List Code} {i j pos : Nat}

/-- The operand of a name gives the same in both versions. -/
theorem answer_name (parsed : parseModule [] text = some code) (before : j ≤ i) {use : Use}
    {operand : Operand}
    (compiles : compileName use.place (pushResultToken (declared (text.take j)) use.place use.name) =
      some operand)
    (replaced : isPrivate use.name = true → use.place ≠ .keyword →
      (declared (text.take i)).lookup use.name ≠ none →
      use.place = .atom ∧ (declared (text.take j)).lookup use.name ≠ none) :
    answer control (visible (declared (text.take i))) (some operand) =
      answer control (declared (text.take i)) (some (plainOperand use)) := by
  obtain ⟨name, place⟩ := use
  cases place with
  | keyword =>
    cases node : pushResultToken (declared (text.take j)) .keyword name with
    | int value =>
      rw [node] at compiles
      cases compiles
    | id other =>
      rw [node] at compiles
      cases compiles
      rfl
  | decorator =>
    cases compiles
    refine loadName_visible control fun hidden => ?_
    by_contra isDeclared
    exact absurd (replaced hidden (by simp) isDeclared).1 (by simp)
  | atom =>
    rw [pushResultToken, if_neg (by simp)] at compiles
    cases found : (declared (text.take j)).lookup name with
    | some value =>
      rw [found] at compiles
      cases compiles
      have later := lookup_grows parsed before found
      have plain : answer control (declared (text.take i)) (some (plainOperand ⟨name, .atom⟩)) =
          loadName control (declared (text.take i)) name := rfl
      rw [plain, loadName, later]
      rfl
    | none =>
      rw [found] at compiles
      cases compiles
      refine loadName_visible control fun hidden => ?_
      by_contra isDeclared
      exact (replaced hidden (by simp) isDeclared).2 found

theorem integers_loadName {globals : Consts} {values : List Int}
    (isValues : args.mapM (fun arg => globals.lookup arg) = some values) :
    integers control globals (args.map .loadName) = some values := by
  induction args generalizing values with
  | nil =>
    cases isValues
    rfl
  | cons arg args ih =>
    rw [mapM_cons] at isValues
    obtain ⟨value, first, isValues⟩ := bind_eq_some_iff.mp isValues
    obtain ⟨others, later, isValues⟩ := bind_eq_some_iff.mp isValues
    cases isValues
    have rest := ih later
    rw [integers] at rest ⊢
    rw [map_cons, mapM_cons, rest]
    simp only [answer, loadName, first]
    rfl

/-- What the other statements read is the same in both versions. -/
theorem answer_read (parsed : parseModule [] text = some code) (before : j ≤ i)
    (replaced : ∀ uses use, text[j]? = some (.other uses) → uses[pos]? = some use →
      isPrivate use.name = true → use.place ≠ .keyword →
      (declared (text.take i)).lookup use.name ≠ none →
      use.place = .atom ∧ (declared (text.take j)).lookup use.name ≠ none) :
    answer control (visible (declared (text.take i)))
        ((code[j]?).bind fun code => code.operands[pos]?) =
      answer control (declared (text.take i))
        (((text.map plainStatement)[j]?).bind fun code => code.operands[pos]?) := by
  rw [List.getElem?_map]
  rcases parseModule_get parsed j with ⟨noText, noCode⟩ | ⟨statement, compiled, here, isCode, compiles⟩
  · rw [noText, noCode]
    rfl
  · rw [here, isCode, map_some, bind_some, bind_some]
    cases statement with
    | const name args value =>
      obtain ⟨-, values, -, rfl⟩ := parseStatement_const compiles
      split_ifs <;> rfl
    | other uses =>
      obtain ⟨operands, mapped, isOther⟩ := bind_eq_some_iff.mp compiles
      cases isOther
      have plain : (plainStatement (.other uses)).operands[pos]? = uses[pos]?.map plainOperand :=
        List.getElem?_map
      have folded : (Code.other operands).operands[pos]? = operands[pos]? := rfl
      rw [plain, folded]
      rcases mapM_get mapped pos with ⟨noUse, noOperand⟩ | ⟨use, operand, isUse, isOperand, named⟩
      · rw [noUse, noOperand]
        rfl
      · rw [isUse, isOperand]
        exact answer_name control parsed before named (replaced uses use here isUse)

/-- The versions do the same step, and the globals are the constants declared so far. -/
theorem step_transparent (parsed : parseModule [] text = some code) {s : ModuleState σ}
    (globals : s.globals = declared (text.take s.statement))
    (replaced : (∃ uses, text[s.statement]? = some (.other uses)) → Replaced control text s) :
    stepModule control code (hidePrivate s) =
        (stepModule control (text.map plainStatement) s).map hidePrivate ∧
      ∀ next, stepModule control (text.map plainStatement) s = some next →
        next.globals = declared (text.take next.statement) := by
  have plainCode : (text.map plainStatement)[s.statement]? = text[s.statement]?.map plainStatement :=
    List.getElem?_map
  rcases parseModule_get parsed s.statement with
    ⟨noText, noCode⟩ | ⟨statement, compiled, here, isCode, compiles⟩
  · rw [noText] at plainCode
    have halts : stepModule control (text.map plainStatement) s = none := by
      rw [stepModule, plainCode]
      rfl
    have alsoHalts : stepModule control code (hidePrivate s) = none := by
      rw [stepModule, hidePrivate, noCode]
    rw [halts, alsoHalts]
    refine ⟨rfl, ?_⟩
    rintro next gives
    cases gives
  · rw [here] at plainCode
    cases statement with
    | const name args value =>
      obtain ⟨-, values, isValues, rfl⟩ := parseStatement_const compiles
      have gives : stepModule control (text.map plainStatement) s = some { s with
          statement := s.statement + 1
          globals := (name, value values) :: s.globals } := by
        have loaded : integers control s.globals (args.map .loadName) = some values := by
          rw [globals]
          exact integers_loadName control isValues
        simp only [stepModule, plainCode, map_some, plainStatement, loaded]
      rw [gives]
      constructor
      · simp only [stepModule, hidePrivate, isCode, map_some, visible_cons]
        split_ifs with hidden
        · rfl
        · rfl
      · rintro next isNext
        cases isNext
        rw [declared_take here, declare, globals]
        exact congrArg (fun values => (name, value values) :: _) (filterMap_of_mapM isValues).symm
    | other uses =>
      obtain ⟨operands, mapped, isOther⟩ := bind_eq_some_iff.mp compiles
      cases isOther
      have replaced := replaced ⟨uses, here⟩
      simp only [stepModule, hidePrivate, plainCode, isCode, map_some, plainStatement]
      rw [Replaced] at replaced
      cases action : control.action s.rest with
      | read back pos continue_ =>
        rw [action] at replaced
        have same := answer_read control parsed (Nat.sub_le s.statement back) replaced
        rw [← globals] at same
        refine ⟨by simp only [same]; rfl, ?_⟩
        rintro next isNext
        cases isNext
        exact globals
      | lookup name continue_ =>
        rw [action, ← globals] at replaced
        refine ⟨by simp only [loadName_visible control replaced]; rfl, ?_⟩
        rintro next isNext
        cases isNext
        exact globals
      | step next =>
        refine ⟨rfl, ?_⟩
        rintro next isNext
        cases isNext
        exact globals
      | done next =>
        refine ⟨rfl, ?_⟩
        rintro next isNext
        cases isNext
        rw [declared_take here]
        exact globals
      | stop =>
        refine ⟨rfl, ?_⟩
        rintro next isNext
        cases isNext

/-! ## Whole runs -/

end Runs

/-! ## Two programs -/

/-- What is left to do, and what has been read. -/
abbrev ToRead : Type := List (Action Unit Empty) × List (Answer Empty)

/-- The other statements do these things one after the other. -/
def readingControl : Control ToRead Empty where
  action
    | (.read back pos _ :: rest, answers) => .read back pos fun answer => (rest, answer :: answers)
    | (.lookup name _ :: rest, answers) => .lookup name fun answer => (rest, answer :: answers)
    | (.step _ :: rest, answers) => .step (rest, answers)
    | (.done _ :: rest, answers) => .done (rest, answers)
    | (.stop :: _, _) | ([], _) => .stop
  builtins _ := none

def readAt (back : Nat) : Action Unit Empty := .read back 0 fun _ => ()

/-- `_X = const(5)`, and a statement with `_X`. -/
def declaredFirst : List Statement := [.const "_X" [] fun _ => 5, .other [⟨"_X", .atom⟩]]

/-- A function that reads `_X`, then `_X = const(5)`, then a call of the function. -/
def usedFirst : List Statement := [.other [⟨"_X", .atom⟩], .const "_X" [] fun _ => 5, .other []]

end MultiPython.Parse
