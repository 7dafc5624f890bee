import Mathlib

/-!
# Binding arguments

`mp_setup_code_state` of `py/bc.c`: the slots of a function's locals from the arguments of a call.
The slots are numbered from the last one, as the code reaches all of them: the slot `i` is
`state[n_state - 1 - i]`, and a pointer that moves down by one moves to the next number. Names are
interned strings.
-/

namespace MultiPython.Vm

/-- A slot of the state: not bound yet, a value of the call, the tuple of the extra arguments, the
dict of the unmatched keywords, or a cell. -/
inductive StateSlot (α : Type) where
  | null
  | obj (value : α)
  | tuple (items : List α)
  | dict (entries : List (Nat × α))
  | cell (contents : StateSlot α)

/-- `== MP_OBJ_NULL`. -/
def StateSlot.isNull {α : Type} : StateSlot α → Bool
  | .null => true
  | _ => false

/-- What the code reads of the function: the numbers and flags of its prelude, the names of its
arguments, and its defaults. -/
structure FunBc (α : Type) where
  nState : Nat
  varargs : Bool
  varkeywords : Bool
  defkwargs : Bool
  nPosArgs : Nat
  nKwonlyArgs : Nat
  nDefPosArgs : Nat
  argNames : List Nat
  extraArgs : List α
  kwDefaults : List (Nat × α)
  /-- The locals that the prelude of the bytecode makes cells of. -/
  cells : List Nat

/-- The errors of a call, which are all a `TypeError` but for an access outside of an array. -/
inductive SetupError where
  | positionalMismatch (expected given : Nat)
  | multipleValues (argument : Nat)
  | unexpectedKeyword (argument : Nat)
  | missingPositional (number : Nat)
  | missingKeyword (argument : Nat)
  | missingKeywordOnly
  | outside
deriving DecidableEq

/-- The state, and the slot of the next of the tuple and the dict. -/
structure VarSlots (α : Type) where
  state : Nat → StateSlot α
  varSlot : Nat

/-- The state, and the dict of the keywords that match no argument. -/
structure Keywords (α : Type) where
  state : Nat → StateSlot α
  dict : List (Nat × α)

section Code

variable {α : Type} (f : FunBc α)

/-- Store into a slot. -/
def storeSlot (state : Nat → StateSlot α) (i : Nat) (value : StateSlot α) :
    Except SetupError (Nat → StateSlot α) :=
  if i < f.nState then .ok (Function.update state i value) else .error .outside

/-- Fill slots with the values of an array. -/
def fillSlots (value : Nat → Option α) (state : Nat → StateSlot α) (slots : List Nat) :
    Except SetupError (Nat → StateSlot α) :=
  slots.foldlM (fun state i =>
    (value i).elim (.error .outside) fun value => storeSlot f state i (.obj value)) state

/-- The extra positional arguments. -/
def extraArguments (args : List α) : Except SetupError (VarSlots α) := do
  let state : Nat → StateSlot α := fun _ => .null
  let varSlot := f.nPosArgs + f.nKwonlyArgs
  if args.length > f.nPosArgs then
    if f.varargs then do
      let state ← storeSlot f state varSlot (.tuple (args.drop f.nPosArgs))
      .ok ⟨state, varSlot + 1⟩
    else .error (.positionalMismatch f.nPosArgs args.length)
  else
    if f.varargs then do
      let state ← storeSlot f state varSlot (.tuple [])
      .ok ⟨state, varSlot + 1⟩
    else .ok ⟨state, varSlot⟩

/-- The defaults of a call without keywords. -/
def defaultArguments (nArgs : Nat) (state : Nat → StateSlot α) :
    Except SetupError (Nat → StateSlot α) :=
  if nArgs ≥ f.nPosArgs - f.nDefPosArgs then
    fillSlots f (fun i => f.extraArgs[i - (f.nPosArgs - f.nDefPosArgs)]?) state
      (List.range' nArgs (f.nPosArgs - nArgs))
  else .error (.positionalMismatch (f.nPosArgs - f.nDefPosArgs) nArgs)

/-- The position of an argument with a name. -/
def argPosition (wantedArgName : Nat) : Option Nat :=
  (f.argNames.take (f.nPosArgs + f.nKwonlyArgs)).idxOf? wantedArgName

/-- A keyword argument. -/
def bindKeyword (s : Keywords α) (kwarg : Nat × α) : Except SetupError (Keywords α) :=
  (argPosition f kwarg.1).elim
    (if f.varkeywords then .ok { s with dict := s.dict ++ [kwarg] }
    else .error (.unexpectedKeyword kwarg.1))
    fun j =>
      if (s.state j).isNull then do
        let state ← storeSlot f s.state j (.obj kwarg.2)
        .ok { s with state := state }
      else .error (.multipleValues kwarg.1)

/-- A default of a positional argument, the `d`th from the last one. -/
def fillDefault (state : Nat → StateSlot α) (d : Nat) : Except SetupError (Nat → StateSlot α) :=
  let i := f.nPosArgs - 1 - d
  if (state i).isNull then
    (f.extraArgs[f.nDefPosArgs - 1 - d]?).elim (.error .outside) fun value =>
      storeSlot f state i (.obj value)
  else .ok state

/-- A mandatory positional argument, the `d`th from the last one. -/
def checkMandatory (state : Nat → StateSlot α) (d : Nat) : Except SetupError Unit :=
  if (state (f.nPosArgs - 1 - d)).isNull then .error (.missingPositional (f.nPosArgs - 1 - d))
  else .ok ()

/-- A keyword-only argument. -/
def fillKeywordOnly (state : Nat → StateSlot α) (i : Nat) : Except SetupError (Nat → StateSlot α) :=
  if (state (f.nPosArgs + i)).isNull then
    (f.argNames[f.nPosArgs + i]?).elim (.error .outside) fun argument =>
      (if f.defkwargs then f.kwDefaults.lookup argument else none).elim
        (.error (.missingKeyword argument)) fun value =>
          storeSlot f state (f.nPosArgs + i) (.obj value)
  else .ok state

/-- The dict of `**kwargs`, with what it holds. -/
def storeVarDict (varSlot : Nat) (state : Nat → StateSlot α) (entries : List (Nat × α)) :
    Except SetupError (Nat → StateSlot α) :=
  if f.varkeywords then storeSlot f state varSlot (.dict entries) else .ok state

/-- The keyword arguments of a call, and the arguments that none of them gives. -/
def keywordArguments (s : VarSlots α) (kwargs : List (Nat × α)) :
    Except SetupError (Nat → StateSlot α) := do
  let state ← storeVarDict f s.varSlot s.state []
  let bound ← kwargs.foldlM (bindKeyword f) ⟨state, []⟩
  let state ← storeVarDict f s.varSlot bound.state bound.dict
  let state ← (List.range f.nDefPosArgs).foldlM (fillDefault f) state
  (List.range' f.nDefPosArgs (f.nPosArgs - f.nDefPosArgs)).forM (checkMandatory f state)
  (List.range f.nKwonlyArgs).foldlM (fillKeywordOnly f) state

/-- A call without keywords. -/
def noKeywords (s : VarSlots α) : Except SetupError (Nat → StateSlot α) :=
  if f.nKwonlyArgs ≠ 0 then .error .missingKeywordOnly
  else storeVarDict f s.varSlot s.state []

/-- The prelude of the bytecode. -/
def closeOver (state : Nat → StateSlot α) (localNum : Nat) :
    Except SetupError (Nat → StateSlot α) :=
  storeSlot f state localNum (.cell (state localNum))

/-- Whether keywords are looked at. -/
def looksAtKeywords (kwargs : List (Nat × α)) : Bool := !kwargs.isEmpty || f.defkwargs

/-- The positional arguments, with their defaults if keywords are not looked at. -/
def positionalArguments (args : List α) (kwargs : List (Nat × α)) (state : Nat → StateSlot α) :
    Except SetupError (Nat → StateSlot α) :=
  if args.length ≤ f.nPosArgs ∧ looksAtKeywords f kwargs = false then do
    let state ← defaultArguments f args.length state
    fillSlots f (fun i => args[i]?) state (List.range (min args.length f.nPosArgs))
  else fillSlots f (fun i => args[i]?) state (List.range (min args.length f.nPosArgs))

/-- The keywords of a call. -/
def namedArguments (s : VarSlots α) (kwargs : List (Nat × α)) :
    Except SetupError (Nat → StateSlot α) :=
  if looksAtKeywords f kwargs then keywordArguments f s kwargs else noKeywords f s

def mpSetupCodeState (args : List α) (kwargs : List (Nat × α)) :
    Except SetupError (Nat → StateSlot α) := do
  let s ← extraArguments f args
  let state ← positionalArguments f args kwargs s.state
  let state ← namedArguments f ⟨state, s.varSlot⟩ kwargs
  f.cells.foldlM (closeOver f) state

end Code

/-! ## The rule -/

/-- The signature of a function, whose closure gives it a number of cells as the first arguments. -/
structure Signature (α : Type) where
  star : Nat
  closed : Nat
  posNames : List Nat
  kwonlyNames : List Nat
  posDefaults : List α
  kwDefaults : Option (List (Nat × α))
  varargs : Bool
  varkeywords : Bool
  nState : Nat
  cells : List Nat
  /-- The compiler refuses an argument whose name is used twice. -/
  distinct : (posNames ++ kwonlyNames).Nodup
  /-- No argument has the name of a cell. -/
  named : star ∉ posNames ++ kwonlyNames
  fewer : posDefaults.length ≤ posNames.length
  /-- The locals have slots. -/
  room : closed + posNames.length + kwonlyNames.length + varargs.toNat + varkeywords.toNat ≤ nState
  cellsOnce : cells.Nodup
  cellsInside : ∀ localNum ∈ cells, localNum < nState

namespace Signature

variable {α : Type} (sig : Signature α) (args : List α) (kwargs : List (Nat × α))

/-- The function that is made of the signature. The cells come first, with the name `*`. -/
def function : FunBc α where
  nState := sig.nState
  varargs := sig.varargs
  varkeywords := sig.varkeywords
  defkwargs := sig.kwDefaults.isSome
  nPosArgs := sig.closed + sig.posNames.length
  nKwonlyArgs := sig.kwonlyNames.length
  nDefPosArgs := sig.posDefaults.length
  argNames := List.replicate sig.closed sig.star ++ (sig.posNames ++ sig.kwonlyNames)
  extraArgs := sig.posDefaults
  kwDefaults := sig.kwDefaults.getD []
  cells := sig.cells

/-- The value of a positional parameter: the argument at its position, the keyword of its name, or
its default. -/
def posValue (j : Nat) : Option α :=
  args[sig.closed + j]?.or ((sig.posNames[j]?.bind fun argument => kwargs.lookup argument).or
    (if sig.posNames.length - sig.posDefaults.length ≤ j then
      sig.posDefaults[j - (sig.posNames.length - sig.posDefaults.length)]?
    else none))

/-- The value of a keyword-only parameter: the keyword of its name, or its default. -/
def kwonlyValue (j : Nat) : Option α :=
  sig.kwonlyNames[j]?.bind fun argument =>
    (kwargs.lookup argument).or (sig.kwDefaults.bind fun defaults => defaults.lookup argument)

/-- The rule of a call: extra arguments only for `*args`, no value twice, other keywords only for
`**kwargs`, and a value for each parameter. -/
structure Binds : Prop where
  extra : args.length ≤ sig.closed + sig.posNames.length ∨ sig.varargs = true
  once : ∀ kwarg ∈ kwargs, ∀ j, sig.posNames[j]? = some kwarg.1 → args.length ≤ sig.closed + j
  known : ∀ kwarg ∈ kwargs, kwarg.1 ∈ sig.posNames ++ sig.kwonlyNames ∨ sig.varkeywords = true
  positional : ∀ j < sig.posNames.length, (sig.posValue args kwargs j).isSome
  keywordOnly : ∀ j < sig.kwonlyNames.length, (sig.kwonlyValue kwargs j).isSome

/-- What a slot holds, in a cell if the local is one. -/
def Holds (state : Nat → StateSlot α) (i : Nat) (value : StateSlot α) : Prop :=
  state i = if i ∈ sig.cells then .cell value else value

/-- What the slots hold by the rule. -/
structure Binding (holds : Nat → StateSlot α → Prop) : Prop where
  closure : ∀ j < sig.closed, ∃ value, args[j]? = some value ∧ holds j (.obj value)
  positional : ∀ j < sig.posNames.length, ∃ value, sig.posValue args kwargs j = some value ∧
    holds (sig.closed + j) (.obj value)
  keywordOnly : ∀ k < sig.kwonlyNames.length, ∃ value, sig.kwonlyValue kwargs k = some value ∧
    holds (sig.closed + sig.posNames.length + k) (.obj value)
  extra : sig.varargs = true →
    holds (sig.closed + sig.posNames.length + sig.kwonlyNames.length)
      (.tuple (args.drop (sig.closed + sig.posNames.length)))
  unmatched : sig.varkeywords = true →
    holds (sig.closed + sig.posNames.length + sig.kwonlyNames.length + sig.varargs.toNat)
      (.dict (kwargs.filter fun kwarg => kwarg.1 ∉ sig.posNames ++ sig.kwonlyNames))

/-- The call binds as the rule says, or raises a `TypeError` where the rule has no binding. -/
structure BindsRight : Prop where
  bound : sig.Binds args kwargs → ∃ state, mpSetupCodeState sig.function args kwargs = .ok state ∧
    sig.Binding args kwargs (sig.Holds state)
  refused : ¬ sig.Binds args kwargs → ∃ error,
    mpSetupCodeState sig.function args kwargs = .error error ∧ error ≠ .outside

end Signature

/-! ## Loops over slots -/

/-- A refusal of the call. -/
def Refuses {β : Type} (result : Except SetupError β) : Prop :=
  ∃ error, result = .error error ∧ error ≠ .outside

section Loops

variable {α : Type} {f : FunBc α} {state : Nat → StateSlot α} {slots : List Nat}

theorem storeSlot_eq {i : Nat} (inside : i < f.nState) (value : StateSlot α) :
    storeSlot f state i value = .ok (Function.update state i value) := if_pos inside

theorem fillSlots_eq {value : Nat → Option α}
    (values : ∀ i ∈ slots, i < f.nState ∧ (value i).isSome) :
    fillSlots f value state slots = .ok fun i =>
      if i ∈ slots then (value i).elim .null .obj else state i := by
  induction slots generalizing state with
  | nil =>
    rw [fillSlots, List.foldlM_nil]
    simp
    rfl
  | cons i slots ih =>
    obtain ⟨inside, isSome⟩ := values i (by simp)
    obtain ⟨v, isValue⟩ := Option.isSome_iff_exists.mp isSome
    have rest := @ih (Function.update state i (.obj v))
      fun k isIn => values k (List.mem_cons_of_mem i isIn)
    rw [fillSlots] at rest
    rw [fillSlots, List.foldlM_cons, isValue, Option.elim_some, storeSlot_eq inside]
    refine rest.trans ?_
    congr 1
    funext k
    by_cases isIn : k ∈ slots
    · simp [isIn]
    · by_cases same : k = i
      · rw [same] at isIn ⊢
        simp [isIn, isValue]
      · simp [isIn, same]

theorem closeOver_eq (once : slots.Nodup) (inside : ∀ i ∈ slots, i < f.nState) :
    slots.foldlM (closeOver f) state = .ok fun i =>
      if i ∈ slots then .cell (state i) else state i := by
  induction slots generalizing state with
  | nil =>
    rw [List.foldlM_nil]
    simp
    rfl
  | cons i slots ih =>
    obtain ⟨notIn, restOnce⟩ := List.nodup_cons.mp once
    have rest := @ih (Function.update state i (.cell (state i))) restOnce
      fun k isIn => inside k (List.mem_cons_of_mem i isIn)
    rw [List.foldlM_cons, closeOver, storeSlot_eq (inside i (by simp))]
    refine rest.trans ?_
    congr 1
    funext k
    by_cases same : k = i
    · rw [same]
      simp [notIn]
    · simp [same]

/-- Fill the slots that are not bound yet. -/
def fillMissing (f : FunBc α) (slot : Nat → Nat) (value : Nat → Except SetupError α)
    (state : Nat → StateSlot α) (d : Nat) : Except SetupError (Nat → StateSlot α) :=
  if (state (slot d)).isNull then do
    let value ← value d
    storeSlot f state (slot d) (.obj value)
  else .ok state

section Missing

variable {slot : Nat → Nat} {value : Nat → Except SetupError α}

/-- What a loop leaves that fills the slots that are not bound. -/
structure SlotsFilled (slot : Nat → Nat) (value : Nat → Except SetupError α) (slots : List Nat)
    (state next : Nat → StateSlot α) : Prop where
  others : ∀ i, (∀ d ∈ slots, slot d ≠ i) → next i = state i
  bound : ∀ d ∈ slots, (state (slot d)).isNull = false → next (slot d) = state (slot d)
  missing : ∀ d ∈ slots, (state (slot d)).isNull = true →
    ∃ v, value d = .ok v ∧ next (slot d) = .obj v

theorem fillMissing_eq {d : Nat} (inside : slot d < f.nState)
    (values : (state (slot d)).isNull = true → ∃ v, value d = .ok v) :
    ∃ next, fillMissing f slot value state d = .ok next ∧ SlotsFilled slot value [d] state next := by
  rw [fillMissing]
  by_cases isNull : (state (slot d)).isNull = true
  · obtain ⟨v, isValue⟩ := values isNull
    rw [if_pos isNull, isValue]
    refine ⟨_, storeSlot_eq inside _, ?_, ?_, ?_⟩
    · intro i apart
      exact Function.update_of_ne (apart d (by simp)).symm _ _
    · intro e isD bound
      rw [List.mem_singleton.mp isD, isNull] at bound
      cases bound
    · intro e isD _
      rw [List.mem_singleton.mp isD]
      exact ⟨v, isValue, Function.update_self _ _ _⟩
  · rw [if_neg isNull]
    refine ⟨state, rfl, fun _ _ => rfl, fun _ _ _ => rfl, ?_⟩
    intro e isD missing
    rw [List.mem_singleton.mp isD] at missing
    exact absurd missing isNull

/-- The loop fills all the slots if there are values for those that are not bound. -/
theorem fillMissing_all (inside : ∀ d ∈ slots, slot d < f.nState)
    (apart : slots.Pairwise fun d e => slot d ≠ slot e)
    (values : ∀ d ∈ slots, (state (slot d)).isNull = true → ∃ v, value d = .ok v) :
    ∃ next, slots.foldlM (fillMissing f slot value) state = .ok next ∧
      SlotsFilled slot value slots state next := by
  induction slots generalizing state with
  | nil => exact ⟨state, rfl, fun _ _ => rfl, by simp, by simp⟩
  | cons d slots ih =>
    obtain ⟨first, restApart⟩ := List.pairwise_cons.mp apart
    obtain ⟨middle, isMiddle, filled⟩ :=
      fillMissing_eq (inside d (by simp)) (values d (by simp))
    have same (e : Nat) (isIn : e ∈ slots) : middle (slot e) = state (slot e) := by
      apply filled.others
      intro k isD
      rw [List.mem_singleton.mp isD]
      exact first e isIn
    obtain ⟨next, isNext, rest⟩ := @ih middle
      (fun e isIn => inside e (List.mem_cons_of_mem d isIn)) restApart
      (fun e isIn => by
        rw [same e isIn]
        exact values e (List.mem_cons_of_mem d isIn))
    have atFirst : next (slot d) = middle (slot d) :=
      rest.others _ fun e isIn => (first e isIn).symm
    refine ⟨next, by rw [List.foldlM_cons, isMiddle]; exact isNext, ?_, ?_, ?_⟩
    · intro i apart
      rw [rest.others i fun e isIn => apart e (List.mem_cons_of_mem d isIn)]
      apply filled.others
      intro e isD
      rw [List.mem_singleton.mp isD]
      exact apart d (by simp)
    · intro e isIn bound
      rcases List.mem_cons.mp isIn with rfl | isRest
      · rw [atFirst]
        exact filled.bound e (by simp) bound
      · rw [rest.bound e isRest (by rwa [same e isRest]), same e isRest]
    · intro e isIn missing
      rcases List.mem_cons.mp isIn with rfl | isRest
      · rw [atFirst]
        exact filled.missing e (by simp) missing
      · exact rest.missing e isRest (by rwa [same e isRest])

/-- The loop refuses the call if a slot is not bound and has no value. -/
theorem fillMissing_refuses (inside : ∀ d ∈ slots, slot d < f.nState)
    (apart : slots.Pairwise fun d e => slot d ≠ slot e)
    (errors : ∀ d ∈ slots, value d ≠ .error .outside)
    (fails : ∃ d ∈ slots, (state (slot d)).isNull = true ∧ ∃ e, value d = .error e) :
    Refuses (slots.foldlM (fillMissing f slot value) state) := by
  induction slots generalizing state with
  | nil => simp at fails
  | cons d slots ih =>
    obtain ⟨first, restApart⟩ := List.pairwise_cons.mp apart
    rw [List.foldlM_cons]
    by_cases failsHere : (state (slot d)).isNull = true ∧ ∃ e, value d = .error e
    · obtain ⟨isNull, e, isError⟩ := failsHere
      rw [fillMissing, if_pos isNull, isError]
      refine ⟨e, rfl, ?_⟩
      rintro rfl
      exact errors d (by simp) isError
    · obtain ⟨middle, isMiddle, filled⟩ := @fillMissing_eq α f state slot value d
        (inside d (by simp)) (by
          intro isNull
          cases isValue : value d with
          | ok v => exact ⟨v, rfl⟩
          | error e => exact absurd ⟨isNull, e, isValue⟩ failsHere)
      rw [isMiddle]
      apply @ih middle (fun e isIn => inside e (List.mem_cons_of_mem d isIn))
        restApart (fun e isIn => errors e (List.mem_cons_of_mem d isIn))
      obtain ⟨e, isIn, isNull, isError⟩ := fails
      rcases List.mem_cons.mp isIn with rfl | isRest
      · exact absurd ⟨isNull, isError⟩ failsHere
      · refine ⟨e, isRest, ?_, isError⟩
        rwa [filled.others]
        intro k isD
        rw [List.mem_singleton.mp isD]
        exact first e isRest

end Missing

theorem checkMandatory_eq (bound : ∀ d ∈ slots, (state (f.nPosArgs - 1 - d)).isNull = false) :
    slots.forM (checkMandatory f state) = .ok () := by
  induction slots with
  | nil => rfl
  | cons d slots ih =>
    rw [List.forM_eq_forM, List.forM_cons, checkMandatory, if_neg (by simp [bound d])]
    exact ih fun e isIn => bound e (List.mem_cons_of_mem d isIn)

theorem checkMandatory_refuses
    (missing : ∃ d ∈ slots, (state (f.nPosArgs - 1 - d)).isNull = true) :
    Refuses (slots.forM (checkMandatory f state)) := by
  induction slots with
  | nil => simp at missing
  | cons d slots ih =>
    rw [List.forM_eq_forM, List.forM_cons, checkMandatory]
    by_cases isNull : (state (f.nPosArgs - 1 - d)).isNull = true
    · rw [if_pos isNull]
      exact ⟨_, rfl, by simp⟩
    · rw [if_neg isNull]
      apply ih
      obtain ⟨e, isIn, isMissing⟩ := missing
      rcases List.mem_cons.mp isIn with rfl | isRest
      · exact absurd isMissing isNull
      · exact ⟨e, isRest, isMissing⟩

/-- A keyword that can be bound: its argument is not, or it goes into the dict. -/
def Fits (f : FunBc α) (state : Nat → StateSlot α) (kwarg : Nat × α) : Prop :=
  (argPosition f kwarg.1).elim (f.varkeywords = true) fun j => (state j).isNull = true

/-- What the loop over the keywords leaves. -/
structure KeywordsBound (f : FunBc α) (s : Keywords α) (kwargs : List (Nat × α))
    (next : Keywords α) : Prop where
  dict : next.dict = s.dict ++ kwargs.filter fun kwarg => (argPosition f kwarg.1).isNone
  others : ∀ i, (∀ kwarg ∈ kwargs, argPosition f kwarg.1 ≠ some i) → next.state i = s.state i
  bound : ∀ kwarg ∈ kwargs, ∀ j, argPosition f kwarg.1 = some j → next.state j = .obj kwarg.2

theorem argPosition_injective {a b j : Nat} (first : argPosition f a = some j)
    (second : argPosition f b = some j) : a = b := by
  obtain ⟨_, isA, -⟩ := List.idxOf?_eq_some_iff.mp first
  obtain ⟨_, isB, -⟩ := List.idxOf?_eq_some_iff.mp second
  exact isA.symm.trans isB

theorem bindKeyword_eq {s : Keywords α} {kwarg : Nat × α}
    (inside : ∀ j, argPosition f kwarg.1 = some j → j < f.nState) (fits : Fits f s.state kwarg) :
    ∃ next, bindKeyword f s kwarg = .ok next ∧ KeywordsBound f s [kwarg] next := by
  rw [bindKeyword]
  cases position : argPosition f kwarg.1 with
  | none =>
    rw [Fits, position, Option.elim_none] at fits
    rw [Option.elim_none, if_pos fits]
    refine ⟨_, rfl, by simp [position], fun _ _ => rfl, ?_⟩
    intro other isOther j isPosition
    rw [List.mem_singleton.mp isOther, position] at isPosition
    cases isPosition
  | some j =>
    rw [Fits, position, Option.elim_some] at fits
    rw [Option.elim_some, if_pos fits, storeSlot_eq (inside j position)]
    refine ⟨_, rfl, by simp [position], ?_, ?_⟩
    · intro i apart
      have differs := apart kwarg (by simp)
      rw [position] at differs
      exact Function.update_of_ne (fun same => differs (congrArg some same.symm)) _ _
    · intro other isOther k isPosition
      rw [List.mem_singleton.mp isOther, position, Option.some.injEq] at isPosition
      rw [List.mem_singleton.mp isOther, ← isPosition]
      exact Function.update_self _ _ _

section

variable {s : Keywords α} {kwargs : List (Nat × α)}
  (inside : ∀ kwarg ∈ kwargs, ∀ j, argPosition f kwarg.1 = some j → j < f.nState)

include s kwargs inside

/-- The loop binds all keywords that fit. -/
theorem bindKeywords_all (distinct : kwargs.Pairwise fun a b => a.1 ≠ b.1)
    (fits : ∀ kwarg ∈ kwargs, Fits f s.state kwarg) :
    ∃ next, kwargs.foldlM (bindKeyword f) s = .ok next ∧ KeywordsBound f s kwargs next := by
  induction kwargs generalizing s with
  | nil => exact ⟨s, rfl, by simp, fun _ _ => rfl, by simp⟩
  | cons kwarg kwargs ih =>
    obtain ⟨first, restDistinct⟩ := List.pairwise_cons.mp distinct
    obtain ⟨middle, isMiddle, one⟩ :=
      bindKeyword_eq (inside kwarg (by simp)) (fits kwarg (by simp))
    have apart (other : Nat × α) (isOther : other ∈ kwargs) (j : Nat)
        (isPosition : argPosition f other.1 = some j) : middle.state j = s.state j := by
      apply one.others
      intro k isKwarg isSame
      rw [List.mem_singleton.mp isKwarg] at isSame
      exact first other isOther (argPosition_injective isSame isPosition)
    obtain ⟨next, isNext, rest⟩ := @ih middle
      (fun other isOther => inside other (List.mem_cons_of_mem kwarg isOther)) restDistinct
      (fun other isOther => by
        have fitsOther := fits other (List.mem_cons_of_mem kwarg isOther)
        rw [Fits] at fitsOther ⊢
        cases position : argPosition f other.1 with
        | none => rwa [position] at fitsOther
        | some j =>
          rw [position, Option.elim_some] at fitsOther
          rw [Option.elim_some, apart other isOther j position]
          exact fitsOther)
    refine ⟨next, by rw [List.foldlM_cons, isMiddle]; exact isNext, ?_, ?_, ?_⟩
    · rw [rest.dict, one.dict, List.append_assoc, ← List.filter_append]
      rfl
    · intro i unnamed
      rw [rest.others i fun other isOther => unnamed other (List.mem_cons_of_mem kwarg isOther)]
      apply one.others
      intro other isOther
      rw [List.mem_singleton.mp isOther]
      exact unnamed kwarg (by simp)
    · intro other isOther j isPosition
      rcases List.mem_cons.mp isOther with rfl | isRest
      · rw [rest.others j]
        · exact one.bound other (by simp) j isPosition
        · intro later isLater isSame
          exact first later isLater (argPosition_injective isPosition isSame)
      · exact rest.bound other isRest j isPosition

/-- The loop refuses a keyword that does not fit. -/
theorem bindKeywords_refuses (fails : ∃ kwarg ∈ kwargs, ¬ Fits f s.state kwarg) :
    Refuses (kwargs.foldlM (bindKeyword f) s) := by
  induction kwargs generalizing s with
  | nil => simp at fails
  | cons kwarg kwargs ih =>
    rw [List.foldlM_cons]
    by_cases fitsHere : Fits f s.state kwarg
    · obtain ⟨middle, isMiddle, one⟩ := bindKeyword_eq (inside kwarg (by simp)) fitsHere
      rw [isMiddle]
      apply @ih middle
        fun other isOther => inside other (List.mem_cons_of_mem kwarg isOther)
      obtain ⟨other, isOther, fitsNot⟩ := fails
      rcases List.mem_cons.mp isOther with rfl | isRest
      · exact absurd fitsHere fitsNot
      · refine ⟨other, isRest, ?_⟩
        intro fitsOther
        apply fitsNot
        rw [Fits] at fitsOther ⊢
        cases position : argPosition f other.1 with
        | none => rwa [position] at fitsOther
        | some j =>
          rw [position, Option.elim_some] at fitsOther
          rw [Option.elim_some]
          -- A slot that is still null afterwards was so before.
          by_cases same : argPosition f kwarg.1 = some j
          · rw [one.bound kwarg (by simp) j same] at fitsOther
            cases fitsOther
          · rw [one.others j (by simpa using same)] at fitsOther
            exact fitsOther
    · rw [bindKeyword]
      rw [Fits] at fitsHere
      cases position : argPosition f kwarg.1 with
      | none =>
        rw [position, Option.elim_none] at fitsHere
        rw [Option.elim_none, if_neg fitsHere]
        exact ⟨_, rfl, by simp⟩
      | some j =>
        rw [position, Option.elim_some] at fitsHere
        rw [Option.elim_some, if_neg fitsHere]
        exact ⟨_, rfl, by simp⟩

end

end Loops

/-! ## Stages of a call -/

theorem lookup_of_mem {α : Type} {kwargs : List (Nat × α)} {kwarg : Nat × α}
    (distinct : kwargs.Pairwise fun a b => a.1 ≠ b.1) (isIn : kwarg ∈ kwargs) :
    kwargs.lookup kwarg.1 = some kwarg.2 := by
  induction kwargs with
  | nil => cases isIn
  | cons first kwargs ih =>
    obtain ⟨apart, restDistinct⟩ := List.pairwise_cons.mp distinct
    rw [List.lookup_cons]
    rcases List.mem_cons.mp isIn with rfl | isRest
    · simp
    · have differs : (kwarg.1 == first.1) = false := by simpa using (apart kwarg isRest).symm
      rw [differs]
      exact ih restDistinct isRest

theorem mem_of_lookup {α : Type} {kwargs : List (Nat × α)} {argument : Nat} {value : α}
    (found : kwargs.lookup argument = some value) : (argument, value) ∈ kwargs := by
  obtain ⟨front, behind, isList, -⟩ := List.lookup_eq_some_iff.mp found
  rw [isList]
  simp

namespace Signature

variable {α : Type} {sig : Signature α} {args : List α} {kwargs : List (Nat × α)}

/-- The names of the parameters. -/
def names (sig : Signature α) : List Nat := sig.posNames ++ sig.kwonlyNames

/-- The slot of a name is behind those of the cells. -/
theorem argPosition_eq_some_iff {argument j : Nat} (clean : 0 < sig.closed → argument ≠ sig.star) :
    argPosition sig.function argument = some j ↔
      sig.closed ≤ j ∧ sig.names[j - sig.closed]? = some argument := by
  have whole : sig.function.argNames.take (sig.function.nPosArgs + sig.function.nKwonlyArgs) =
      List.replicate sig.closed sig.star ++ sig.names := by
    apply List.take_of_length_le
    simp only [function, List.length_append, List.length_replicate]
    omega
  rw [argPosition, whole, List.idxOf?_eq_some_iff]
  constructor
  · rintro ⟨inside, isHere, -⟩
    by_cases isCell : j < sig.closed
    · rw [List.getElem_append_left (by simpa using isCell), List.getElem_replicate] at isHere
      exact absurd isHere.symm (clean (by omega))
    · rw [List.getElem_append_right (by simpa using not_lt.mp isCell)] at isHere
      simp only [List.length_replicate] at isHere
      refine ⟨not_lt.mp isCell, ?_⟩
      rw [List.getElem?_eq_some_iff]
      exact ⟨_, isHere⟩
  · rintro ⟨behind, isHere⟩
    obtain ⟨inside, isName⟩ := List.getElem?_eq_some_iff.mp isHere
    refine ⟨by simp only [List.length_append, List.length_replicate]; omega, ?_, ?_⟩
    · rw [List.getElem_append_right (by simpa using behind)]
      simpa using isName
    · intro k before same
      by_cases isCell : k < sig.closed
      · rw [List.getElem_append_left (by simpa using isCell), List.getElem_replicate] at same
        exact clean (by omega) same.symm
      · rw [List.getElem_append_right (by simpa using not_lt.mp isCell)] at same
        simp only [List.length_replicate] at same
        have index := (List.Nodup.getElem_inj_iff sig.distinct).mp (same.trans isName.symm)
        omega

theorem argPosition_eq_none_iff {argument : Nat} (clean : 0 < sig.closed → argument ≠ sig.star) :
    argPosition sig.function argument = none ↔ argument ∉ sig.names := by
  constructor
  · intro isNone isName
    obtain ⟨n, inside, isHere⟩ := List.getElem_of_mem isName
    have position := (@argPosition_eq_some_iff α sig argument (sig.closed + n) clean).mpr
      ⟨Nat.le_add_right _ _, by
        rw [Nat.add_sub_cancel_left, List.getElem?_eq_some_iff]
        exact ⟨_, isHere⟩⟩
    rw [isNone] at position
    cases position
  · intro notName
    cases position : argPosition sig.function argument with
    | none => rfl
    | some j =>
      obtain ⟨-, isHere⟩ := (argPosition_eq_some_iff clean).mp position
      exact absurd (List.mem_of_getElem? isHere) notName

/-- The positional arguments in their slots, with the tuple of the extra ones. -/
structure Given (sig : Signature α) (args : List α) (state : Nat → StateSlot α) : Prop where
  given : ∀ i < sig.closed + sig.posNames.length + sig.kwonlyNames.length,
    state i = ((args.take (sig.closed + sig.posNames.length))[i]?).elim .null .obj
  extra : sig.varargs = true → state (sig.closed + sig.posNames.length + sig.kwonlyNames.length) =
    .tuple (args.drop (sig.closed + sig.posNames.length))

/-- Besides them the keywords in their slots, with the dict of the unmatched ones. -/
structure Named (sig : Signature α) (args : List α) (kwargs : List (Nat × α))
    (state : Nat → StateSlot α) : Prop where
  closure : ∀ j < sig.closed, state j = (args[j]?).elim .null .obj
  named : ∀ n argument, sig.names[n]? = some argument → state (sig.closed + n) =
    (((args.take (sig.closed + sig.posNames.length))[sig.closed + n]?).or
      (kwargs.lookup argument)).elim .null .obj
  extra : sig.varargs = true → state (sig.closed + sig.posNames.length + sig.kwonlyNames.length) =
    .tuple (args.drop (sig.closed + sig.posNames.length))
  unmatched : sig.varkeywords = true →
    state (sig.closed + sig.posNames.length + sig.kwonlyNames.length + sig.varargs.toNat) =
      .dict (kwargs.filter fun kwarg => kwarg.1 ∉ sig.names)

theorem names_getElem?_pos {j argument : Nat} (isName : sig.posNames[j]? = some argument) :
    sig.names[j]? = some argument := by
  have inside := (List.getElem?_eq_some_iff.mp isName).1
  rwa [names, List.getElem?_append_left inside]

/-- The keywords fit where the rule lets them. -/
theorem fits_iff {state : Nat → StateSlot α}
    (clean : ∀ kwarg ∈ kwargs, 0 < sig.closed → kwarg.1 ≠ sig.star)
    (given : ∀ i < sig.closed + sig.posNames.length + sig.kwonlyNames.length,
      state i = ((args.take (sig.closed + sig.posNames.length))[i]?).elim .null .obj) :
    (∀ kwarg ∈ kwargs, Fits sig.function state kwarg) ↔
      (∀ kwarg ∈ kwargs, ∀ j, sig.posNames[j]? = some kwarg.1 → args.length ≤ sig.closed + j) ∧
        ∀ kwarg ∈ kwargs, kwarg.1 ∈ sig.names ∨ sig.varkeywords = true := by
  have null_iff (i : Nat) (inside : i < sig.closed + sig.posNames.length + sig.kwonlyNames.length) :
      (state i).isNull = true ↔
        args.length ≤ i ∨ sig.closed + sig.posNames.length ≤ i := by
    rw [given i inside]
    by_cases isGiven : i < min (sig.closed + sig.posNames.length) args.length
    · rw [List.getElem?_eq_getElem (by simpa using isGiven)]
      simp only [Option.elim_some, StateSlot.isNull, Bool.false_eq_true, false_iff]
      omega
    · rw [List.getElem?_eq_none (by simpa using not_lt.mp isGiven)]
      simp only [Option.elim_none, StateSlot.isNull, true_iff]
      omega
  constructor
  · intro fits
    constructor
    · intro kwarg isIn j isName
      have inside := (List.getElem?_eq_some_iff.mp isName).1
      have position := (@argPosition_eq_some_iff α sig kwarg.1 (sig.closed + j)
        (clean kwarg isIn)).mpr ⟨Nat.le_add_right _ _, by
          rw [Nat.add_sub_cancel_left]
          exact names_getElem?_pos isName⟩
      have fitsHere := fits kwarg isIn
      rw [Fits, position, Option.elim_some, null_iff _ (by omega)] at fitsHere
      omega
    · intro kwarg isIn
      have fitsHere := fits kwarg isIn
      by_cases isName : kwarg.1 ∈ sig.names
      · exact .inl isName
      · rw [Fits, (argPosition_eq_none_iff (clean kwarg isIn)).mpr isName] at fitsHere
        exact .inr fitsHere
  · rintro ⟨once, known⟩ kwarg isIn
    rw [Fits]
    cases position : argPosition sig.function kwarg.1 with
    | none =>
      have unnamed := (argPosition_eq_none_iff (clean kwarg isIn)).mp position
      exact (known kwarg isIn).resolve_left unnamed
    | some j =>
      obtain ⟨behind, isName⟩ := (argPosition_eq_some_iff (clean kwarg isIn)).mp position
      have inside := (List.getElem?_eq_some_iff.mp isName).1
      rw [names, List.length_append] at inside
      rw [Option.elim_some, null_iff j (by omega)]
      by_cases isPositional : j - sig.closed < sig.posNames.length
      · left
        rw [names, List.getElem?_append_left isPositional] at isName
        have least := once kwarg isIn _ isName
        omega
      · right
        omega

variable {s : VarSlots α}

/-- The loop over the keywords, for keywords that fit. -/
theorem named_of_bound {bound : Keywords α} {state : Nat → StateSlot α}
    (clean : ∀ kwarg ∈ kwargs, 0 < sig.closed → kwarg.1 ≠ sig.star)
    (distinct : kwargs.Pairwise fun a b => a.1 ≠ b.1) (given : sig.Given args s.state)
    (fits : ∀ kwarg ∈ kwargs, Fits sig.function s.state kwarg)
    (isBound : KeywordsBound sig.function ⟨s.state, []⟩ kwargs bound)
    (isVarSlot : s.varSlot = sig.closed + sig.posNames.length + sig.kwonlyNames.length +
      sig.varargs.toNat) (others : ∀ i, i ≠ s.varSlot → state i = bound.state i)
    (dict : sig.varkeywords = true → state s.varSlot = .dict bound.dict) :
    sig.Named args kwargs state := by
  have names_length : sig.names.length = sig.posNames.length + sig.kwonlyNames.length :=
    List.length_append
  -- A position of a keyword is that of its name.
  have place (kwarg : Nat × α) (isIn : kwarg ∈ kwargs) (j : Nat)
      (position : argPosition sig.function kwarg.1 = some j) :
      sig.closed ≤ j ∧ j < sig.closed + sig.posNames.length + sig.kwonlyNames.length ∧
        sig.names[j - sig.closed]? = some kwarg.1 := by
    obtain ⟨behind, isName⟩ := (argPosition_eq_some_iff (clean kwarg isIn)).mp position
    have inside := (List.getElem?_eq_some_iff.mp isName).1
    exact ⟨behind, by omega, isName⟩
  have kept (i : Nat) (apart : ∀ kwarg ∈ kwargs, argPosition sig.function kwarg.1 ≠ some i) :
      bound.state i = s.state i := isBound.others i apart
  refine ⟨?_, ?_, ?_, ?_⟩
  · intro j isCell
    rw [others j (by omega), kept j, given.given j (by omega),
      List.getElem?_take_of_lt (by omega)]
    intro kwarg isIn position
    have := place kwarg isIn j position
    omega
  · intro n argument isName
    have inside := (List.getElem?_eq_some_iff.mp isName).1
    rw [others _ (by omega)]
    cases found : kwargs.lookup argument with
    | none =>
      rw [kept, given.given _ (by omega), Option.or_none]
      intro kwarg isIn position
      have isSame := (place kwarg isIn _ position).2.2
      rw [Nat.add_sub_cancel_left, isName, Option.some.injEq] at isSame
      rw [isSame, lookup_of_mem distinct isIn] at found
      cases found
    | some value =>
      have isIn := mem_of_lookup found
      have position := (@argPosition_eq_some_iff α sig argument (sig.closed + n)
        (clean _ isIn)).mpr ⟨Nat.le_add_right _ _, by rwa [Nat.add_sub_cancel_left]⟩
      have isNull := fits _ isIn
      rw [Fits, position, Option.elim_some, given.given _ (by omega)] at isNull
      rw [isBound.bound _ isIn _ position]
      cases isGiven : (args.take (sig.closed + sig.posNames.length))[sig.closed + n]? with
      | none => rfl
      | some other =>
        rw [isGiven] at isNull
        cases isNull
  · intro isVarargs
    have next : sig.varargs.toNat = 1 := by rw [isVarargs]; rfl
    rw [others _ (by omega), kept, given.extra isVarargs]
    intro kwarg isIn position
    have := place kwarg isIn _ position
    omega
  · intro isVarkeywords
    rw [← isVarSlot, dict isVarkeywords, isBound.dict, List.nil_append]
    congr 1
    apply List.filter_congr
    intro kwarg isIn
    rw [Bool.eq_iff_iff, Option.isNone_iff_eq_none, decide_eq_true_eq]
    exact argPosition_eq_none_iff (clean kwarg isIn)

/-- Besides them the defaults of the positional parameters. -/
structure Defaulted (sig : Signature α) (args : List α) (kwargs : List (Nat × α))
    (state : Nat → StateSlot α) : Prop where
  closure : ∀ j < sig.closed, state j = (args[j]?).elim .null .obj
  positional : ∀ j < sig.posNames.length,
    state (sig.closed + j) = (sig.posValue args kwargs j).elim .null .obj
  keywordOnly : ∀ k argument, sig.kwonlyNames[k]? = some argument →
    state (sig.closed + sig.posNames.length + k) = (kwargs.lookup argument).elim .null .obj
  extra : sig.varargs = true → state (sig.closed + sig.posNames.length + sig.kwonlyNames.length) =
    .tuple (args.drop (sig.closed + sig.posNames.length))
  unmatched : sig.varkeywords = true →
    state (sig.closed + sig.posNames.length + sig.kwonlyNames.length + sig.varargs.toNat) =
      .dict (kwargs.filter fun kwarg => kwarg.1 ∉ sig.names)

theorem lookup_getD (defaults : Option (List (Nat × α))) (argument : Nat) :
    (if defaults.isSome = true then (defaults.getD []).lookup argument else none) =
      defaults.bind fun defaults => defaults.lookup argument := by
  cases defaults with
  | none => rfl
  | some defaults => rfl

theorem isNull_elim (value : Option α) :
    (value.elim StateSlot.null StateSlot.obj).isNull = value.isNone := by
  cases value with
  | none => rfl
  | some v => rfl

/-- The loop over the defaults. -/
theorem fillDefault_spec {state : Nat → StateSlot α} (named : sig.Named args kwargs state) :
    ∃ next, (List.range sig.posDefaults.length).foldlM (fillDefault sig.function) state = .ok next ∧
      sig.Defaulted args kwargs next := by
  have fewer := sig.fewer
  have room := sig.room
  have isLoop : fillDefault sig.function = fillMissing sig.function
      (fun d => sig.closed + sig.posNames.length - 1 - d)
      (fun d => (sig.posDefaults[sig.posDefaults.length - 1 - d]?).elim (.error .outside) .ok) := by
    funext state d
    rw [fillDefault, fillMissing]
    simp only [function]
    cases sig.posDefaults[sig.posDefaults.length - 1 - d]? with
    | none => rfl
    | some v => rfl
  obtain ⟨next, isNext, filled⟩ := @fillMissing_all α sig.function state
    (List.range sig.posDefaults.length) (fun d => sig.closed + sig.posNames.length - 1 - d)
    (fun d => (sig.posDefaults[sig.posDefaults.length - 1 - d]?).elim (.error .outside) .ok)
    (by
      intro d isIn
      have := List.mem_range.mp isIn
      simp only [function]
      omega)
    (by
      rw [List.pairwise_iff_getElem]
      intro i j iInside jInside isLess
      simp only [List.length_range, List.getElem_range] at iInside jInside ⊢
      omega)
    (by
      intro d isIn _
      have inside : sig.posDefaults.length - 1 - d < sig.posDefaults.length := by
        have := List.mem_range.mp isIn
        omega
      exact ⟨_, by rw [List.getElem?_eq_getElem inside]; rfl⟩)
  refine ⟨next, by rw [isLoop]; exact isNext, ?_, ?_, ?_, ?_, ?_⟩
  · intro j isCell
    rw [filled.others, named.closure j isCell]
    intro d isIn
    have := List.mem_range.mp isIn
    omega
  · intro j inside
    have isName : sig.posNames[j]? = some sig.posNames[j] := List.getElem?_eq_getElem inside
    have before := named.named j _ (names_getElem?_pos isName)
    rw [List.getElem?_take_of_lt (by omega)] at before
    rw [posValue, isName, Option.bind_some, ← Option.or_assoc]
    by_cases isDefault : sig.posNames.length - sig.posDefaults.length ≤ j
    · rw [if_pos isDefault]
      have isIn : sig.posNames.length - 1 - j ∈ List.range sig.posDefaults.length := by
        rw [List.mem_range]
        omega
      have isSlot : sig.closed + sig.posNames.length - 1 - (sig.posNames.length - 1 - j) =
          sig.closed + j := by omega
      have isPlace : sig.posDefaults.length - 1 - (sig.posNames.length - 1 - j) =
          j - (sig.posNames.length - sig.posDefaults.length) := by omega
      have missing := filled.missing _ isIn
      have bound := filled.bound _ isIn
      simp only [isSlot, isPlace, before, isNull_elim] at missing bound
      cases isGiven : args[sig.closed + j]?.or (kwargs.lookup sig.posNames[j]) with
      | none =>
        rw [isGiven] at missing
        obtain ⟨v, isValue, isNext⟩ := missing rfl
        rw [isNext, Option.none_or]
        cases isHere : sig.posDefaults[j - (sig.posNames.length - sig.posDefaults.length)]? with
        | none =>
          rw [isHere] at isValue
          cases isValue
        | some default =>
          rw [isHere] at isValue
          cases isValue
          rfl
      | some v =>
        rw [isGiven] at bound
        rw [bound rfl]
        rfl
    · rw [if_neg isDefault, Option.or_none, filled.others, before]
      intro d isIn
      have := List.mem_range.mp isIn
      omega
  · intro k argument isName
    have inside := (List.getElem?_eq_some_iff.mp isName).1
    have isNameAll : sig.names[sig.posNames.length + k]? = some argument := by
      rw [names, List.getElem?_append_right (by omega), Nat.add_sub_cancel_left]
      exact isName
    have before := named.named _ _ isNameAll
    rw [List.getElem?_eq_none (by simp only [List.length_take]; omega), Option.none_or,
      ← Nat.add_assoc] at before
    rw [filled.others, before]
    intro d isIn
    have := List.mem_range.mp isIn
    omega
  · intro isVarargs
    rw [filled.others, named.extra isVarargs]
    intro d isIn
    have := List.mem_range.mp isIn
    omega
  · intro isVarkeywords
    rw [filled.others, named.unmatched isVarkeywords]
    intro d isIn
    have := List.mem_range.mp isIn
    omega

/-- The checks behind the defaults let a call pass, or refuse it, as the rule does. -/
theorem keywordOnly_spec {state : Nat → StateSlot α} (defaulted : sig.Defaulted args kwargs state) :
    ((∀ k < sig.kwonlyNames.length, (sig.kwonlyValue kwargs k).isSome) ∧
        ∃ next, (List.range sig.kwonlyNames.length).foldlM (fillKeywordOnly sig.function) state =
            .ok next ∧
          (∀ i, (∀ k < sig.kwonlyNames.length, sig.closed + sig.posNames.length + k ≠ i) →
            next i = state i) ∧
          ∀ k < sig.kwonlyNames.length, ∃ value, sig.kwonlyValue kwargs k = some value ∧
            next (sig.closed + sig.posNames.length + k) = .obj value) ∨
      (¬ ∀ k < sig.kwonlyNames.length, (sig.kwonlyValue kwargs k).isSome) ∧
        Refuses
          ((List.range sig.kwonlyNames.length).foldlM (fillKeywordOnly sig.function) state) := by
  have room := sig.room
  -- The loop fills each slot with what the rule asks for.
  have names_eq (k : Nat) : sig.function.argNames[sig.function.nPosArgs + k]? =
      sig.kwonlyNames[k]? := by
    have apart : sig.closed + sig.posNames.length + k - sig.closed = sig.posNames.length + k := by
      omega
    simp only [function]
    rw [List.getElem?_append_right (by simp only [List.length_replicate]; omega),
      List.length_replicate, apart, List.getElem?_append_right (by omega), Nat.add_sub_cancel_left]
  have looked (argument : Nat) :
      (if sig.function.defkwargs = true then sig.function.kwDefaults.lookup argument else none) =
        sig.kwDefaults.bind fun defaults => defaults.lookup argument :=
    lookup_getD sig.kwDefaults argument
  have isLoop : fillKeywordOnly sig.function = fillMissing sig.function
      (fun k => sig.closed + sig.posNames.length + k)
      (fun k => (sig.kwonlyNames[k]?).elim (.error .outside) fun argument =>
        (sig.kwDefaults.bind fun defaults => defaults.lookup argument).elim
          (.error (.missingKeyword argument)) .ok) := by
    funext state k
    rw [fillKeywordOnly, fillMissing, names_eq]
    cases sig.kwonlyNames[k]? with
    | none => rfl
    | some argument =>
      simp only [Option.elim_some, looked]
      cases sig.kwDefaults.bind fun defaults => defaults.lookup argument with
      | none => rfl
      | some v => rfl
  have inside : ∀ k ∈ List.range sig.kwonlyNames.length,
      sig.closed + sig.posNames.length + k < sig.function.nState := by
    intro k isIn
    have := List.mem_range.mp isIn
    simp only [function]
    omega
  have apart : (List.range sig.kwonlyNames.length).Pairwise fun k l =>
      sig.closed + sig.posNames.length + k ≠ sig.closed + sig.posNames.length + l := by
    rw [List.pairwise_iff_getElem]
    intro i j iInside jInside isLess
    simp only [List.getElem_range]
    omega
  -- What is in a slot before, and the value it is given.
  have before (k : Nat) (isIn : k < sig.kwonlyNames.length) :
      state (sig.closed + sig.posNames.length + k) =
        (kwargs.lookup sig.kwonlyNames[k]).elim .null .obj ∧
      sig.kwonlyValue kwargs k = (kwargs.lookup sig.kwonlyNames[k]).or
        (sig.kwDefaults.bind fun defaults => defaults.lookup sig.kwonlyNames[k]) := by
    have isName : sig.kwonlyNames[k]? = some sig.kwonlyNames[k] := List.getElem?_eq_getElem isIn
    exact ⟨defaulted.keywordOnly k _ isName, by rw [kwonlyValue, isName, Option.bind_some]⟩
  rw [isLoop]
  by_cases all : ∀ k < sig.kwonlyNames.length, (sig.kwonlyValue kwargs k).isSome
  · left
    refine ⟨all, ?_⟩
    obtain ⟨next, isNext, filled⟩ := @fillMissing_all α sig.function state _ _
      (fun k => (sig.kwonlyNames[k]?).elim (.error .outside) fun argument =>
        (sig.kwDefaults.bind fun defaults => defaults.lookup argument).elim
          (.error (.missingKeyword argument)) .ok) inside apart (by
      intro k isIn isNull
      have isIn := List.mem_range.mp isIn
      obtain ⟨isState, isValue⟩ := before k isIn
      rw [isState, isNull_elim, Option.isNone_iff_eq_none] at isNull
      rw [isNull, Option.none_or] at isValue
      obtain ⟨v, isDefault⟩ := Option.isSome_iff_exists.mp (isValue ▸ all k isIn)
      exact ⟨v, by rw [List.getElem?_eq_getElem isIn, Option.elim_some, isDefault]; rfl⟩)
    refine ⟨next, isNext, ?_, ?_⟩
    · intro i unnamed
      exact filled.others i fun k isIn => unnamed k (List.mem_range.mp isIn)
    · intro k isIn
      obtain ⟨isState, isValue⟩ := before k isIn
      have missing := filled.missing k (List.mem_range.mpr isIn)
      have bound := filled.bound k (List.mem_range.mpr isIn)
      rw [isState, isNull_elim] at missing bound
      rw [isValue]
      cases given : kwargs.lookup sig.kwonlyNames[k] with
      | some v =>
        rw [given] at bound
        exact ⟨v, rfl, bound rfl⟩
      | none =>
        rw [given] at missing
        obtain ⟨v, isDefault, isObj⟩ := missing rfl
        rw [List.getElem?_eq_getElem isIn, Option.elim_some] at isDefault
        cases found : sig.kwDefaults.bind fun defaults => defaults.lookup sig.kwonlyNames[k] with
        | none =>
          rw [found] at isDefault
          cases isDefault
        | some default =>
          rw [found] at isDefault
          cases isDefault
          exact ⟨_, rfl, isObj⟩
  · right
    refine ⟨all, ?_⟩
    obtain ⟨k, notAll⟩ := not_forall.mp all
    obtain ⟨isIn, isNone⟩ := Classical.not_imp.mp notAll
    obtain ⟨isState, isValue⟩ := before k isIn
    rw [Option.not_isSome_iff_eq_none, isValue, Option.or_eq_none_iff] at isNone
    refine fillMissing_refuses inside apart ?_ ⟨k, List.mem_range.mpr isIn, ?_, ?_⟩
    · intro l isLast
      have isLast := List.mem_range.mp isLast
      rw [List.getElem?_eq_getElem isLast, Option.elim_some]
      cases sig.kwDefaults.bind fun defaults => defaults.lookup sig.kwonlyNames[l] with
      | none => simp
      | some v => simp
    · rw [isState, isNull_elim, isNone.1]
      rfl
    · exact ⟨_, by rw [List.getElem?_eq_getElem isIn, Option.elim_some, isNone.2]; rfl⟩

/-- The part of the rule that is about keywords and defaults. -/
structure BindsKeywords (sig : Signature α) (args : List α) (kwargs : List (Nat × α)) : Prop where
  once : ∀ kwarg ∈ kwargs, ∀ j, sig.posNames[j]? = some kwarg.1 → args.length ≤ sig.closed + j
  known : ∀ kwarg ∈ kwargs, kwarg.1 ∈ sig.names ∨ sig.varkeywords = true
  positional : ∀ j < sig.posNames.length, (sig.posValue args kwargs j).isSome
  keywordOnly : ∀ j < sig.kwonlyNames.length, (sig.kwonlyValue kwargs j).isSome

/-- A stage of the call lets it pass as the rule does, or refuses it. -/
def Decides (rule : Prop) (result : Except SetupError (Nat → StateSlot α))
    (passed : (Nat → StateSlot α) → Prop) : Prop :=
  (rule ∧ ∃ state, result = .ok state ∧ passed state) ∨ (¬ rule ∧ Refuses result)

/-- The mandatory arguments are there if the rule has values for all positional parameters. -/
theorem checkMandatory_spec {state : Nat → StateSlot α} (cellsGiven : sig.closed ≤ args.length)
    (defaulted : sig.Defaulted args kwargs state) :
    ((∀ j < sig.posNames.length, (sig.posValue args kwargs j).isSome) ∧
        (List.range' sig.posDefaults.length
            (sig.closed + sig.posNames.length - sig.posDefaults.length)).forM
          (checkMandatory sig.function state) = .ok ()) ∨
      (¬ ∀ j < sig.posNames.length, (sig.posValue args kwargs j).isSome) ∧
        Refuses ((List.range' sig.posDefaults.length
            (sig.closed + sig.posNames.length - sig.posDefaults.length)).forM
          (checkMandatory sig.function state)) := by
  have fewer := sig.fewer
  by_cases all : ∀ j < sig.posNames.length, (sig.posValue args kwargs j).isSome
  · left
    refine ⟨all, checkMandatory_eq ?_⟩
    intro d isIn
    have range := List.mem_range'_1.mp isIn
    have isCount : sig.function.nPosArgs = sig.closed + sig.posNames.length := rfl
    rw [isCount]
    by_cases isCell : sig.closed + sig.posNames.length - 1 - d < sig.closed
    · rw [defaulted.closure _ isCell, isNull_elim, List.getElem?_eq_getElem (by omega)]
      rfl
    · have inside :
          sig.closed + sig.posNames.length - 1 - d - sig.closed < sig.posNames.length := by omega
      have isSlot := defaulted.positional _ inside
      rw [Nat.add_sub_cancel' (not_lt.mp isCell)] at isSlot
      rw [isSlot, isNull_elim]
      exact Option.isNone_eq_false_iff.mpr (all _ inside)
  · right
    refine ⟨all, checkMandatory_refuses ?_⟩
    obtain ⟨j, notAll⟩ := not_forall.mp all
    obtain ⟨inside, isNone⟩ := Classical.not_imp.mp notAll
    rw [Option.not_isSome_iff_eq_none] at isNone
    have isMandatory : j < sig.posNames.length - sig.posDefaults.length := by
      by_contra isDefault
      rw [posValue, Option.or_eq_none_iff, Option.or_eq_none_iff, if_pos (by omega)] at isNone
      have behind := List.getElem?_eq_none_iff.mp isNone.2.2
      omega
    refine ⟨sig.posNames.length - 1 - j, List.mem_range'_1.mpr ⟨by omega, by omega⟩, ?_⟩
    have isSlot : sig.function.nPosArgs - 1 - (sig.posNames.length - 1 - j) = sig.closed + j := by
      simp only [function]
      omega
    rw [isSlot, defaulted.positional j inside, isNull_elim, isNone]
    rfl

/-- The dict is in a slot of its own. -/
theorem storeVarDict_spec {varSlot : Nat} (isVarSlot : varSlot =
      sig.closed + sig.posNames.length + sig.kwonlyNames.length + sig.varargs.toNat)
    (before : Nat → StateSlot α) (entries : List (Nat × α)) :
    ∃ state, storeVarDict sig.function varSlot before entries = .ok state ∧
      (∀ i, i ≠ varSlot → state i = before i) ∧
      (sig.varkeywords = true → state varSlot = .dict entries) := by
  have room := sig.room
  by_cases isVarkeywords : sig.varkeywords = true
  · have next : sig.varkeywords.toNat = 1 := by rw [isVarkeywords]; rfl
    have inside : varSlot < sig.function.nState := by
      simp only [function]
      omega
    exact ⟨_, (if_pos isVarkeywords).trans (storeSlot_eq inside _),
      fun i apart => Function.update_of_ne apart _ _, fun _ => Function.update_self _ _ _⟩
  · exact ⟨before, if_neg isVarkeywords, fun _ _ => rfl, fun is => absurd is isVarkeywords⟩

theorem keywordArguments_spec (clean : ∀ kwarg ∈ kwargs, 0 < sig.closed → kwarg.1 ≠ sig.star)
    (distinct : kwargs.Pairwise fun a b => a.1 ≠ b.1) (cellsGiven : sig.closed ≤ args.length)
    (given : sig.Given args s.state)
    (isVarSlot : s.varSlot = sig.closed + sig.posNames.length + sig.kwonlyNames.length +
      sig.varargs.toNat) :
    Decides (sig.BindsKeywords args kwargs) (keywordArguments sig.function s kwargs)
      fun state => sig.Binding args kwargs fun i value => state i = value := by
  have room := sig.room
  have stored := @storeVarDict_spec α sig s.varSlot isVarSlot
  obtain ⟨state, isState, others, -⟩ := stored s.state []
  have givenState : sig.Given args state := by
    constructor
    · intro i isIn
      rw [others i (by omega), given.given i isIn]
    · intro isVarargs
      have next : sig.varargs.toNat = 1 := by rw [isVarargs]; rfl
      rw [others _ (by omega), given.extra isVarargs]
  have names_length : sig.names.length = sig.posNames.length + sig.kwonlyNames.length :=
    List.length_append
  have places : ∀ kwarg ∈ kwargs, ∀ j, argPosition sig.function kwarg.1 = some j →
      j < sig.function.nState := by
    intro kwarg isIn j position
    obtain ⟨behind, isName⟩ := (argPosition_eq_some_iff (clean kwarg isIn)).mp position
    have := (List.getElem?_eq_some_iff.mp isName).1
    simp only [function]
    omega
  have fitsIff := fits_iff clean givenState.given
  rw [keywordArguments]
  have isDef : sig.function.nDefPosArgs = sig.posDefaults.length := rfl
  have isPos : sig.function.nPosArgs = sig.closed + sig.posNames.length := rfl
  have isKwonly : sig.function.nKwonlyArgs = sig.kwonlyNames.length := rfl
  rw [isDef, isPos, isKwonly, isState]
  by_cases fits : ∀ kwarg ∈ kwargs, Fits sig.function state kwarg
  · obtain ⟨once, known⟩ := fitsIff.mp fits
    obtain ⟨bound, isBound, isLoop⟩ :=
      @bindKeywords_all α sig.function ⟨state, []⟩ kwargs places distinct fits
    obtain ⟨withDict, isWithDict, keptDict, atDict⟩ := stored bound.state bound.dict
    have named := @named_of_bound α sig args kwargs ⟨state, s.varSlot⟩ bound withDict clean distinct
      givenState fits isLoop isVarSlot keptDict atDict
    obtain ⟨filled, isFilled, defaulted⟩ := fillDefault_spec named
    have runs : (Except.ok state >>= fun state => do
        let bound ← kwargs.foldlM (bindKeyword sig.function) ⟨state, []⟩
        let state ← storeVarDict sig.function s.varSlot bound.state bound.dict
        let state ← (List.range sig.posDefaults.length).foldlM (fillDefault sig.function) state
        (List.range' sig.posDefaults.length
          (sig.closed + sig.posNames.length - sig.posDefaults.length)).forM
            (checkMandatory sig.function state)
        (List.range sig.kwonlyNames.length).foldlM (fillKeywordOnly sig.function) state) =
        (do
          (List.range' sig.posDefaults.length
            (sig.closed + sig.posNames.length - sig.posDefaults.length)).forM
              (checkMandatory sig.function filled)
          (List.range sig.kwonlyNames.length).foldlM (fillKeywordOnly sig.function) filled) := by
      simp only [bind, Except.bind, isBound, isWithDict, isFilled]
    rw [runs]
    rcases checkMandatory_spec cellsGiven defaulted with
      ⟨positional, isChecked⟩ | ⟨missing, refuses⟩
    · rw [isChecked]
      rcases keywordOnly_spec defaulted with
        ⟨keywordOnly, next, isNext, kept, isKeywordOnly⟩ | ⟨missing, refuses⟩
      · left
        refine ⟨⟨once, known, positional, keywordOnly⟩, next, isNext, ?_, ?_, isKeywordOnly, ?_, ?_⟩
        · intro j isCell
          refine ⟨args[j], List.getElem?_eq_getElem (by omega), ?_⟩
          rw [kept j fun k _ => by omega, defaulted.closure j isCell,
            List.getElem?_eq_getElem (by omega)]
          rfl
        · intro j isIn
          obtain ⟨value, isValue⟩ := Option.isSome_iff_exists.mp (positional j isIn)
          refine ⟨value, isValue, ?_⟩
          rw [kept _ fun k _ => by omega, defaulted.positional j isIn, isValue]
          rfl
        · intro isVarargs
          rw [kept _ fun k isIn => by omega]
          exact defaulted.extra isVarargs
        · intro isVarkeywords
          rw [kept _ fun k isIn => by omega]
          exact defaulted.unmatched isVarkeywords
      · right
        exact ⟨fun rule => missing rule.keywordOnly, refuses⟩
    · right
      obtain ⟨error, isError, isType⟩ := refuses
      refine ⟨fun rule => missing rule.positional, error, ?_, isType⟩
      rw [isError]
      rfl
  · right
    refine ⟨fun rule => fits (fitsIff.mpr ⟨rule.once, rule.known⟩), ?_⟩
    obtain ⟨kwarg, notAll⟩ := not_forall.mp fits
    obtain ⟨isIn, fitsNot⟩ := Classical.not_imp.mp notAll
    obtain ⟨error, isError, isType⟩ :=
      @bindKeywords_refuses α sig.function ⟨state, []⟩ kwargs places ⟨kwarg, isIn, fitsNot⟩
    refine ⟨error, ?_, isType⟩
    simp only [bind, Except.bind, isError]

/-- The tuple of the extra arguments, where the rule lets there be some. -/
theorem extraArguments_spec (sig : Signature α) (args : List α) :
    ((args.length ≤ sig.closed + sig.posNames.length ∨ sig.varargs = true) ∧
        ∃ s, extraArguments sig.function args = .ok s ∧
          s.varSlot = sig.closed + sig.posNames.length + sig.kwonlyNames.length +
            sig.varargs.toNat ∧
          (∀ i < sig.closed + sig.posNames.length + sig.kwonlyNames.length, s.state i = .null) ∧
          (sig.varargs = true →
            s.state (sig.closed + sig.posNames.length + sig.kwonlyNames.length) =
              .tuple (args.drop (sig.closed + sig.posNames.length)))) ∨
      (¬ (args.length ≤ sig.closed + sig.posNames.length ∨ sig.varargs = true) ∧
        Refuses (extraArguments sig.function args)) := by
  have room := sig.room
  by_cases isVarargs : sig.varargs = true
  · have next : sig.varargs.toNat = 1 := by rw [isVarargs]; rfl
    left
    refine ⟨.inr isVarargs, ?_⟩
    -- Without more arguments than positions the tuple is empty, as the rest of the list is.
    have runs : extraArguments sig.function args = (storeSlot sig.function (fun _ => .null)
        (sig.closed + sig.posNames.length + sig.kwonlyNames.length)
        (.tuple (args.drop (sig.closed + sig.posNames.length))) >>= fun state =>
          .ok ⟨state, sig.closed + sig.posNames.length + sig.kwonlyNames.length + 1⟩) := by
      by_cases more : args.length > sig.closed + sig.posNames.length
      · exact (if_pos more).trans (if_pos isVarargs)
      · rw [List.drop_eq_nil_of_le (not_lt.mp more)]
        exact (if_neg more).trans (if_pos isVarargs)
    rw [runs, storeSlot_eq (by simp only [function]; omega)]
    refine ⟨_, rfl, by rw [next], ?_, ?_⟩
    · intro i inside
      have apart : i ≠ sig.closed + sig.posNames.length + sig.kwonlyNames.length := by omega
      simp only [Function.update_of_ne apart]
    · intro _
      simp only [Function.update_self]
  · have next : sig.varargs.toNat = 0 := by
      rw [Bool.eq_false_iff.mpr isVarargs]
      rfl
    by_cases more : args.length > sig.closed + sig.posNames.length
    · right
      have runs : extraArguments sig.function args =
          .error (.positionalMismatch (sig.closed + sig.posNames.length) args.length) :=
        (if_pos more).trans (if_neg isVarargs)
      exact ⟨not_or.mpr ⟨not_le.mpr more, isVarargs⟩, _, runs, by simp⟩
    · left
      have runs : extraArguments sig.function args =
          .ok ⟨fun _ => .null, sig.closed + sig.posNames.length + sig.kwonlyNames.length⟩ :=
        (if_neg more).trans (if_neg isVarargs)
      exact ⟨.inl (by omega), _, runs, by rw [next]; rfl, fun _ _ => rfl,
        fun is => absurd is isVarargs⟩

theorem fillSlots_args {state : Nat → StateSlot α} :
    fillSlots sig.function (fun i => args[i]?) state
      (List.range (min args.length (sig.closed + sig.posNames.length))) = .ok fun i =>
        ((args.take (sig.closed + sig.posNames.length))[i]?).elim (state i) .obj := by
  have room := sig.room
  rw [fillSlots_eq]
  · congr 1
    funext i
    by_cases inside : i < min args.length (sig.closed + sig.posNames.length)
    · rw [if_pos (List.mem_range.mpr inside), List.getElem?_take_of_lt (by omega),
        List.getElem?_eq_getElem (by omega)]
      rfl
    · rw [if_neg (List.mem_range.not.mpr inside),
        List.getElem?_eq_none (by simp only [List.length_take]; omega)]
      rfl
  · intro i isIn
    have inside := List.mem_range.mp isIn
    refine ⟨by simp only [function]; omega, ?_⟩
    rw [List.getElem?_eq_getElem (by omega)]
    rfl

theorem positionalArguments_looked {state : Nat → StateSlot α}
    (looked : looksAtKeywords sig.function kwargs = true) :
    positionalArguments sig.function args kwargs state = .ok fun i =>
      ((args.take (sig.closed + sig.posNames.length))[i]?).elim (state i) .obj := by
  refine (if_neg ?_).trans fillSlots_args
  intro both
  rw [looked] at both
  cases both.2

/-- A call without keywords, of a function without defaults for keyword-only parameters. -/
theorem positionalArguments_spec {state : Nat → StateSlot α} (unlooked : kwargs = [])
    (cellsGiven : sig.closed ≤ args.length) (noDefaults : sig.kwDefaults = none) :
    ((∀ j < sig.posNames.length, (sig.posValue args kwargs j).isSome) ∧
        ∃ next, positionalArguments sig.function args kwargs state = .ok next ∧
          (∀ j < sig.closed, next j = (args[j]?).elim .null .obj) ∧
          (∀ j < sig.posNames.length,
            next (sig.closed + j) = (sig.posValue args kwargs j).elim .null .obj) ∧
          ∀ i, sig.closed + sig.posNames.length ≤ i → next i = state i) ∨
      (¬ (∀ j < sig.posNames.length, (sig.posValue args kwargs j).isSome) ∧
        Refuses (positionalArguments sig.function args kwargs state)) := by
  have fewer := sig.fewer
  have room := sig.room
  have isUnlooked : looksAtKeywords sig.function kwargs = false := by
    rw [looksAtKeywords, unlooked]
    simp only [function, noDefaults]
    rfl
  have value_eq (j : Nat) : sig.posValue args kwargs j = args[sig.closed + j]?.or
      (if sig.posNames.length - sig.posDefaults.length ≤ j then
        sig.posDefaults[j - (sig.posNames.length - sig.posDefaults.length)]? else none) := by
    rw [posValue, unlooked]
    cases sig.posNames[j]? with
    | none => rfl
    | some argument => rfl
  by_cases more : args.length > sig.closed + sig.posNames.length
  · left
    have given (j : Nat) (inside : j < sig.posNames.length) :
        sig.posValue args kwargs j = some args[sig.closed + j] := by
      rw [value_eq, List.getElem?_eq_getElem (by omega), Option.some_or]
    have runs : positionalArguments sig.function args kwargs state =
        fillSlots sig.function (fun i => args[i]?) state
          (List.range (min args.length (sig.closed + sig.posNames.length))) :=
      if_neg fun both => absurd both.1 (not_le.mpr more)
    refine ⟨fun j inside => by rw [given j inside]; rfl, _, runs.trans fillSlots_args, ?_, ?_, ?_⟩
    · intro j isCell
      rw [List.getElem?_take_of_lt (by omega), List.getElem?_eq_getElem (by omega)]
      rfl
    · intro j inside
      rw [List.getElem?_take_of_lt (by omega), given j inside, List.getElem?_eq_getElem (by omega)]
      rfl
    · intro i behind
      rw [List.getElem?_eq_none (by simp only [List.length_take]; omega)]
      rfl
  · have runs : positionalArguments sig.function args kwargs state =
        (defaultArguments sig.function args.length state >>= fun state =>
          fillSlots sig.function (fun i => args[i]?) state
            (List.range (min args.length (sig.closed + sig.posNames.length)))) :=
      if_pos ⟨not_lt.mp more, isUnlooked⟩
    by_cases enough : args.length ≥ sig.closed + sig.posNames.length - sig.posDefaults.length
    · left
      -- The default of a position behind the arguments.
      have default (i : Nat) (behind : args.length ≤ i)
          (inside : i < sig.closed + sig.posNames.length) : ∃ value,
            sig.posDefaults[i - (sig.closed + sig.posNames.length - sig.posDefaults.length)]? =
              some value := ⟨_, List.getElem?_eq_getElem (by omega)⟩
      have isFilled : defaultArguments sig.function args.length state =
          fillSlots sig.function (fun i =>
            sig.posDefaults[i - (sig.closed + sig.posNames.length - sig.posDefaults.length)]?) state
              (List.range' args.length (sig.closed + sig.posNames.length - args.length)) :=
        if_pos enough
      rw [runs, isFilled, fillSlots_eq (by
        intro i isIn
        have range := List.mem_range'_1.mp isIn
        obtain ⟨value, isValue⟩ := default i range.1 (by omega)
        exact ⟨by simp only [function]; omega, by rw [isValue]; rfl⟩)]
      refine ⟨?_, _, fillSlots_args, ?_, ?_, ?_⟩
      · intro j inside
        rw [value_eq]
        by_cases isGiven : sig.closed + j < args.length
        · rw [List.getElem?_eq_getElem isGiven]
          rfl
        · rw [List.getElem?_eq_none (by omega), Option.none_or, if_pos (by omega),
            List.getElem?_eq_getElem (by omega)]
          rfl
      · intro j isCell
        rw [List.getElem?_take_of_lt (by omega), List.getElem?_eq_getElem (by omega)]
        rfl
      · intro j inside
        rw [List.getElem?_take_of_lt (by omega), value_eq]
        by_cases isGiven : sig.closed + j < args.length
        · rw [List.getElem?_eq_getElem isGiven]
          rfl
        · have isIn : sig.closed + j ∈
              List.range' args.length (sig.closed + sig.posNames.length - args.length) :=
            List.mem_range'_1.mpr ⟨by omega, by omega⟩
          have isPlace : sig.closed + j -
              (sig.closed + sig.posNames.length - sig.posDefaults.length) =
                j - (sig.posNames.length - sig.posDefaults.length) := by omega
          have isDefault : sig.posNames.length - sig.posDefaults.length ≤ j := by omega
          rw [List.getElem?_eq_none (by omega), Option.none_or, if_pos isDefault, Option.elim_none,
            if_pos isIn, isPlace]
      · intro i behind
        have notIn : i ∉ List.range' args.length
            (sig.closed + sig.posNames.length - args.length) := by
          intro isIn
          have range := List.mem_range'_1.mp isIn
          omega
        rw [List.getElem?_eq_none (by simp only [List.length_take]; omega), Option.elim_none,
          if_neg notIn]
    · right
      have isRefused : defaultArguments sig.function args.length state =
          .error (.positionalMismatch (sig.closed + sig.posNames.length - sig.posDefaults.length)
            args.length) := if_neg enough
      rw [runs, isRefused]
      refine ⟨?_, _, rfl, by simp⟩
      intro all
      have missing := all (args.length - sig.closed) (by omega)
      rw [value_eq, List.getElem?_eq_none (by omega), if_neg (by omega)] at missing
      cases missing

theorem noKeywords_spec (isVarSlot : s.varSlot =
      sig.closed + sig.posNames.length + sig.kwonlyNames.length + sig.varargs.toNat) :
    (sig.kwonlyNames = [] ∧ ∃ next, noKeywords sig.function s = .ok next ∧
        (∀ i, i ≠ s.varSlot → next i = s.state i) ∧
        (sig.varkeywords = true → next s.varSlot = .dict [])) ∨
      (sig.kwonlyNames ≠ [] ∧ Refuses (noKeywords sig.function s)) := by
  by_cases isEmpty : sig.kwonlyNames = []
  · left
    obtain ⟨next, isNext, others, dict⟩ := storeVarDict_spec isVarSlot s.state []
    have none_ : ¬ sig.function.nKwonlyArgs ≠ 0 := by
      simp only [function, isEmpty, List.length_nil]
      decide
    exact ⟨isEmpty, next, (if_neg none_).trans isNext, others, dict⟩
  · right
    have some_ : sig.function.nKwonlyArgs ≠ 0 := by
      simpa only [function, ne_eq, List.length_eq_zero_iff] using isEmpty
    exact ⟨isEmpty, _, if_pos some_, by simp⟩

theorem Binding.mono {holds weaker : Nat → StateSlot α → Prop}
    (binding : sig.Binding args kwargs holds)
    (implies : ∀ i value, holds i value → weaker i value) : sig.Binding args kwargs weaker := by
  refine ⟨?_, ?_, ?_, ?_, ?_⟩
  · intro j isCell
    obtain ⟨value, isValue, isHere⟩ := binding.closure j isCell
    exact ⟨value, isValue, implies _ _ isHere⟩
  · intro j inside
    obtain ⟨value, isValue, isHere⟩ := binding.positional j inside
    exact ⟨value, isValue, implies _ _ isHere⟩
  · intro k inside
    obtain ⟨value, isValue, isHere⟩ := binding.keywordOnly k inside
    exact ⟨value, isValue, implies _ _ isHere⟩
  · intro isVarargs
    exact implies _ _ (binding.extra isVarargs)
  · intro isVarkeywords
    exact implies _ _ (binding.unmatched isVarkeywords)

theorem closeOver_spec {state : Nat → StateSlot α}
    (binding : sig.Binding args kwargs fun i value => state i = value) :
    ∃ next, sig.cells.foldlM (closeOver sig.function) state = .ok next ∧
      sig.Binding args kwargs (sig.Holds next) := by
  refine ⟨_, closeOver_eq sig.cellsOnce sig.cellsInside, binding.mono ?_⟩
  intro i value isValue
  rw [Holds, isValue]

/-- The stages behind the positional arguments, if keywords are looked at. -/
theorem looked_decides (clean : ∀ kwarg ∈ kwargs, 0 < sig.closed → kwarg.1 ≠ sig.star)
    (distinct : kwargs.Pairwise fun a b => a.1 ≠ b.1) (cellsGiven : sig.closed ≤ args.length)
    (looked : looksAtKeywords sig.function kwargs = true)
    (isVarSlot : s.varSlot = sig.closed + sig.posNames.length + sig.kwonlyNames.length +
      sig.varargs.toNat)
    (null : ∀ i < sig.closed + sig.posNames.length + sig.kwonlyNames.length, s.state i = .null)
    (tuple : sig.varargs = true →
      s.state (sig.closed + sig.posNames.length + sig.kwonlyNames.length) =
        .tuple (args.drop (sig.closed + sig.posNames.length))) :
    Decides (sig.BindsKeywords args kwargs)
      (positionalArguments sig.function args kwargs s.state >>= fun state =>
        namedArguments sig.function ⟨state, s.varSlot⟩ kwargs)
      fun state => sig.Binding args kwargs fun i value => state i = value := by
  have isNamed (state : Nat → StateSlot α) : namedArguments sig.function ⟨state, s.varSlot⟩ kwargs =
      keywordArguments sig.function ⟨state, s.varSlot⟩ kwargs := if_pos looked
  rw [positionalArguments_looked looked]
  change Decides _ (namedArguments sig.function ⟨_, s.varSlot⟩ kwargs) _
  rw [isNamed]
  refine keywordArguments_spec clean distinct cellsGiven ⟨?_, ?_⟩ isVarSlot
  · intro i inside
    simp only [null i inside]
  · intro isVarargs
    have behind : (args.take (sig.closed + sig.posNames.length))[sig.closed + sig.posNames.length +
        sig.kwonlyNames.length]? = none :=
      List.getElem?_eq_none (by simp only [List.length_take]; omega)
    simp only [behind, Option.elim_none]
    exact tuple isVarargs

/-- The stages behind the extra arguments, if keywords are not looked at. -/
theorem unlooked_decides (cellsGiven : sig.closed ≤ args.length)
    (unlooked : looksAtKeywords sig.function kwargs = false)
    (isVarSlot : s.varSlot = sig.closed + sig.posNames.length + sig.kwonlyNames.length +
      sig.varargs.toNat) (tuple : sig.varargs = true →
      s.state (sig.closed + sig.posNames.length + sig.kwonlyNames.length) =
        .tuple (args.drop (sig.closed + sig.posNames.length))) :
    Decides (sig.BindsKeywords args kwargs)
      (positionalArguments sig.function args kwargs s.state >>= fun state =>
        namedArguments sig.function ⟨state, s.varSlot⟩ kwargs)
      fun state => sig.Binding args kwargs fun i value => state i = value := by
  obtain ⟨isKeyword, isDefault⟩ := Bool.or_eq_false_iff.mp unlooked
  have noKeyword : kwargs = [] := by simpa using isKeyword
  have noDefaults : sig.kwDefaults = none := by
    cases isDefaults : sig.kwDefaults with
    | none => rfl
    | some defaults =>
      simp only [function, isDefaults] at isDefault
      cases isDefault
  have isNamed (state : Nat → StateSlot α) : namedArguments sig.function ⟨state, s.varSlot⟩ kwargs =
      noKeywords sig.function ⟨state, s.varSlot⟩ := if_neg (by rw [unlooked]; decide)
  rcases positionalArguments_spec noKeyword cellsGiven noDefaults with
    ⟨positional, state, isState, closure, slots, others⟩ | ⟨missing, error, isError, isType⟩
  · rw [isState]
    rcases @noKeywords_spec α sig ⟨state, s.varSlot⟩ isVarSlot with
      ⟨isEmpty, next, isNext, kept, dict⟩ | ⟨nonempty, refuses⟩
    · left
      have count : sig.kwonlyNames.length = 0 := by rw [isEmpty]; rfl
      refine ⟨⟨?_, ?_, positional, ?_⟩, next, (isNamed state).trans isNext, ?_, ?_, ?_, ?_, ?_⟩
      · intro kwarg isIn
        rw [noKeyword] at isIn
        cases isIn
      · intro kwarg isIn
        rw [noKeyword] at isIn
        cases isIn
      · intro k inside
        omega
      · intro j isCell
        refine ⟨args[j], List.getElem?_eq_getElem (by omega), ?_⟩
        rw [kept j (by simp only; omega)]
        refine (closure j isCell).trans ?_
        rw [List.getElem?_eq_getElem (by omega)]
        rfl
      · intro j inside
        obtain ⟨value, isValue⟩ := Option.isSome_iff_exists.mp (positional j inside)
        refine ⟨value, isValue, ?_⟩
        rw [kept _ (by simp only; omega)]
        refine (slots j inside).trans ?_
        rw [isValue]
        rfl
      · intro k inside
        omega
      · intro isVarargs
        have one : sig.varargs.toNat = 1 := by rw [isVarargs]; rfl
        rw [kept _ (by simp only; omega)]
        exact (others _ (by omega)).trans (tuple isVarargs)
      · intro isVarkeywords
        rw [← isVarSlot, noKeyword]
        exact dict isVarkeywords
    · right
      constructor
      · intro rule
        have first := rule.keywordOnly 0 (List.length_pos_iff.mpr nonempty)
        simp [kwonlyValue, noKeyword, noDefaults] at first
      · change Refuses (namedArguments sig.function ⟨state, s.varSlot⟩ kwargs)
        rw [isNamed]
        exact refuses
  · right
    refine ⟨fun rule => missing rule.positional, error, ?_, isType⟩
    rw [isError]
    rfl

/-- Every call that does not name a cell is decided as the rule does. -/
theorem mpSetupCodeState_decides (clean : ∀ kwarg ∈ kwargs, 0 < sig.closed → kwarg.1 ≠ sig.star)
    (distinct : kwargs.Pairwise fun a b => a.1 ≠ b.1) (cellsGiven : sig.closed ≤ args.length) :
    Decides (sig.Binds args kwargs) (mpSetupCodeState sig.function args kwargs)
      fun state => sig.Binding args kwargs (sig.Holds state) := by
  rcases extraArguments_spec sig args with ⟨extra, s, isExtra, isVarSlot, null, tuple⟩ |
    ⟨tooMany, error, isError, isType⟩
  · have runs : mpSetupCodeState sig.function args kwargs =
        ((positionalArguments sig.function args kwargs s.state >>= fun state =>
          namedArguments sig.function ⟨state, s.varSlot⟩ kwargs) >>= fun state =>
            sig.cells.foldlM (closeOver sig.function) state) := by
      rw [mpSetupCodeState, isExtra, bind_assoc]
      rfl
    have decides : Decides (sig.BindsKeywords args kwargs)
        (positionalArguments sig.function args kwargs s.state >>= fun state =>
          namedArguments sig.function ⟨state, s.varSlot⟩ kwargs)
        fun state => sig.Binding args kwargs fun i value => state i = value := by
      cases looked : looksAtKeywords sig.function kwargs with
      | true => exact looked_decides clean distinct cellsGiven looked isVarSlot null tuple
      | false => exact unlooked_decides cellsGiven looked isVarSlot tuple
    rw [runs]
    rcases decides with ⟨rule, state, isState, binding⟩ | ⟨refused, error, isError, isType⟩
    · left
      obtain ⟨next, isNext, holds⟩ := closeOver_spec binding
      refine ⟨⟨extra, rule.once, rule.known, rule.positional, rule.keywordOnly⟩, next, ?_, holds⟩
      rw [isState]
      exact isNext
    · right
      refine ⟨fun rule => refused ⟨rule.once, rule.known, rule.positional, rule.keywordOnly⟩,
        error, ?_, isType⟩
      rw [isError]
      rfl
  · right
    refine ⟨fun rule => tooMany rule.extra, error, ?_, isType⟩
    rw [mpSetupCodeState, isError]
    rfl

/-- A keyword with the name of the cells is never bound, as the first cell has its place. -/
theorem mpSetupCodeState_star (some_ : 0 < sig.closed) (cellsGiven : sig.closed ≤ args.length)
    (isNamed : ∃ kwarg ∈ kwargs, kwarg.1 = sig.star) :
    Refuses (mpSetupCodeState sig.function args kwargs) := by
  have room := sig.room
  obtain ⟨kwarg, isIn, isStar⟩ := isNamed
  rcases extraArguments_spec sig args with ⟨-, s, isExtra, isVarSlot, -, -⟩ |
    ⟨-, error, isError, isType⟩
  · have looked : looksAtKeywords sig.function kwargs = true := by
      cases kwargs with
      | nil => cases isIn
      | cons first rest => rfl
    obtain ⟨state, isState, others, -⟩ := storeVarDict_spec isVarSlot (fun i =>
      ((args.take (sig.closed + sig.posNames.length))[i]?).elim (s.state i) .obj) []
    have position : argPosition sig.function kwarg.1 = some 0 := by
      rw [isStar, argPosition, List.idxOf?_eq_some_iff]
      refine ⟨by simp only [function, List.length_take, List.length_append,
        List.length_replicate]; omega, ?_, by omega⟩
      simp only [function]
      rw [List.getElem_take, List.getElem_append_left (by simpa using some_),
        List.getElem_replicate]
    have places : ∀ kwarg ∈ kwargs, ∀ j, argPosition sig.function kwarg.1 = some j →
        j < sig.function.nState := by
      intro other _ j isPlace
      obtain ⟨inside, -, -⟩ := List.idxOf?_eq_some_iff.mp isPlace
      simp only [function, List.length_take, List.length_append, List.length_replicate] at inside ⊢
      omega
    obtain ⟨error, isError, isType⟩ :=
      @bindKeywords_refuses α sig.function ⟨state, []⟩ kwargs places ⟨kwarg, isIn, by
        rw [Fits, position, Option.elim_some]
        simp only
        rw [others 0 (by omega), List.getElem?_take_of_lt (by omega),
          List.getElem?_eq_getElem (by omega)]
        simp [StateSlot.isNull]⟩
    have isRefused (after : Nat → StateSlot α) (same : after = fun i =>
        ((args.take (sig.closed + sig.posNames.length))[i]?).elim (s.state i) .obj) :
        namedArguments sig.function ⟨after, s.varSlot⟩ kwargs = .error error := by
      refine (if_pos looked).trans ?_
      rw [keywordArguments, same]
      simp only [bind, Except.bind, isState, isError]
    refine ⟨error, ?_, isType⟩
    rw [mpSetupCodeState, isExtra]
    simp only [bind, Except.bind, positionalArguments_looked looked, isRefused _ rfl]
  · refine ⟨error, ?_, isType⟩
    rw [mpSetupCodeState, isError]
    rfl

/-- `def f(a, b=2, *, c): …`, called as `f(1, c=3)`: the names are `7`, `8` and `9`, and `1` is the
name of a cell. -/
def keywordOnlySignature : Signature Nat where
  star := 1
  closed := 0
  posNames := [7, 8]
  kwonlyNames := [9]
  posDefaults := [2]
  kwDefaults := none
  varargs := false
  varkeywords := false
  nState := 4
  cells := [1]
  distinct := by decide
  named := by decide
  fewer := by decide
  room := by decide
  cellsOnce := by decide
  cellsInside := by decide

/-- `def f(**kw): …` with a cell of the function that it is in. -/
def closureSignature : Signature Nat where
  star := 1
  closed := 1
  posNames := []
  kwonlyNames := []
  posDefaults := []
  kwDefaults := none
  varargs := false
  varkeywords := true
  nState := 2
  cells := []
  distinct := by decide
  named := by decide
  fewer := by decide
  room := by decide
  cellsOnce := by decide
  cellsInside := by decide

end Signature

end MultiPython.Vm
