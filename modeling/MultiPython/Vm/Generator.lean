import MultiPython.Logic.Calls

/-!
# Generators

`py/objgenerator.c`. A generator object holds the frame of its body: whether it has started, is
suspended or has finished is read off the instruction pointer and the stack pointer of that frame.
A body is any program that runs until it yields, returns or raises. `GenState` is Python's protocol
for the same body, with the three states as such.
-/

namespace MultiPython.Vm

open Logic Option

/-- What the generator functions ask of objects. `raised` is the exception that
`mp_make_raise_obj` makes of an exception class or instance, and `ofTypeAndValue` the one that Python
makes of the two arguments of `throw`. -/
structure Objects (α : Type*) where
  constNone : α
  constGeneratorExit : α
  raised : α → Option α
  ofTypeAndValue : α → α → Option α
  isStopIteration : α → Bool
  isGeneratorExit : α → Bool
  stopIteration : Option α → α
  typeError : String → α
  runtimeError : String → α
  valueError : String → α
  raised_generatorExit : raised constGeneratorExit = some constGeneratorExit
  generatorExit_isGeneratorExit : isGeneratorExit constGeneratorExit = true
  generatorExit_not_stopIteration : isStopIteration constGeneratorExit = false

/-- What a body goes on with. -/
inductive Resumption (α : Type*) where
  | start
  | send (value : α)
  | throw (exc : α)
deriving DecidableEq

/-- How a body gives control back. A value that is yielded or returned lies at some depth of the
frame's stack. -/
inductive Outcome (κ α : Type*) where
  | yield (depth : Nat) (value : α) (rest : κ)
  | return (depth : Nat) (value : α)
  | raise (exc : α)
deriving DecidableEq

/-- A generator body over points `κ`, globals `γ` and a world `ω`: from a point it runs until it
gives control back, unless it runs forever. -/
structure Body (κ γ ω α : Type*) where
  entry : κ
  run : κ → Resumption α → γ → ω → Option (Outcome κ α × ω)

/-- `mp_code_state_t`: `ip` is `none` for the null pointer, `sp` is -1 below the first slot. -/
structure CodeState (κ γ α : Type*) where
  ip : Option κ
  sp : Int
  state : Int → Option α
  oldGlobals : Option γ

/-- `mp_obj_gen_instance_t`. -/
structure GenInstance (κ γ α : Type*) where
  globals : Option γ
  codeState : CodeState κ γ α

/-- What a thread holds besides the generator: `mp_globals_get` and everything else. -/
structure Caller (γ ω : Type*) where
  globals : γ
  world : ω
deriving DecidableEq, Repr

/-- `mp_vm_return_kind_t`. -/
inductive VmReturnKind where
  | normal
  | yield
  | exception
deriving DecidableEq

/-- What `mp_obj_gen_resume` does: it raises, or returns a kind and `*ret_val`, where `none` is
`MP_OBJ_STOP_ITERATION`. -/
inductive Resumed (α : Type*) where
  | raises (exc : α)
  | returns (kind : VmReturnKind) (retVal : Option α)

/-- What `gen_resume_and_raise` does. -/
inductive Advanced (α : Type*) where
  | value (value : α)
  | stop
  | raises (exc : α)

/-- What a caller gets. -/
inductive CallResult (α : Type*) where
  | returns (value : α)
  | raises (exc : α)
deriving DecidableEq, Repr

/-- The calls from outside: `next(gen)` and the methods. -/
inductive GenCall (α : Type*) where
  | next
  | send (value : α)
  | throw (exc : α)
  | throwTypeAndValue (type value : α)
  | close

variable {κ γ ω α : Type*} [DecidableEq α] (objects : Objects α) (body : Body κ γ ω α)

/-! ## The generator object -/

/-- `gen_wrap_call`: the frame of a generator is set up, with nothing on its stack. -/
def genWrapCall (globals : γ) : GenInstance κ γ α where
  globals := some globals
  codeState := { ip := some body.entry, sp := -1, state := fun _ => none, oldGlobals := none }

def mpMakeRaiseObj (exc : α) : α :=
  (objects.raised exc).getD (objects.typeError "exceptions must derive from BaseException")

/-- Store what a body gives control back with in its frame. -/
def CodeState.settle (codeState : CodeState κ γ α) :
    Outcome κ α × ω → VmReturnKind × CodeState κ γ α × ω
  | (.yield depth value rest, world) =>
    (.yield, { codeState with
      ip := some rest, sp := depth, state := Function.update codeState.state depth (some value) },
      world)
  | (.return depth value, world) =>
    (.normal, { codeState with
      sp := depth, state := Function.update codeState.state depth (some value) }, world)
  | (.raise exc, world) =>
    (.exception, { codeState with state := Function.update codeState.state 0 (some exc) }, world)

/-- `mp_execute_bytecode` on the frame of a generator. At the first instruction no handler is set
up, so what is thrown there is not seen by the body. -/
def mpExecuteBytecode (codeState : CodeState κ γ α) (throwValue : Option α) (globals : γ)
    (world : ω) : Option (VmReturnKind × CodeState κ γ α × ω) :=
  match codeState.ip, throwValue with
  | none, _ => none
  | some point, some thrown =>
    let exc := mpMakeRaiseObj objects thrown
    if codeState.sp = -1 then some (codeState.settle (.raise exc, world))
    else (body.run point (.throw exc) globals world).map codeState.settle
  | some point, none =>
    let resumption := if codeState.sp = -1 then .start
      else .send ((codeState.state codeState.sp).getD objects.constNone)
    (body.run point resumption globals world).map codeState.settle

/-- `mp_obj_gen_resume`, from the check of `self->globals` on. -/
def genExecute (pendThrow : Bool) (self : GenInstance κ γ α) (throwValue : Option α)
    (caller : Caller γ ω) : Option (Resumed α × GenInstance κ γ α × Caller γ ω) :=
  match self.globals with
  | none => some (.raises (objects.valueError "generator already executing"), self, caller)
  | some globals =>
    let codeState := { self.codeState with oldGlobals := some caller.globals }
    (mpExecuteBytecode objects body codeState throwValue globals caller.world).map
      fun (kind, codeState, world) =>
        let caller := { globals := codeState.oldGlobals.getD globals, world := world }
        match kind with
        | .normal =>
          (.returns .normal (codeState.state codeState.sp),
            { globals := some globals, codeState := { codeState with ip := none } }, caller)
        | .yield =>
          let retVal := codeState.state codeState.sp
          let state := if pendThrow
            then Function.update codeState.state codeState.sp (some objects.constNone)
            else codeState.state
          (.returns .yield retVal,
            { globals := some globals, codeState := { codeState with state := state } }, caller)
        | .exception =>
          let retVal := codeState.state 0
          -- A StopIteration that leaves the body is replaced.
          let retVal := retVal.map fun exc =>
            if objects.isStopIteration exc then
              objects.runtimeError "generator raised StopIteration"
            else exc
          (.returns .exception retVal,
            { globals := some globals, codeState := { codeState with ip := none } }, caller)

/-- `mp_obj_gen_resume`. `pendThrow` is `MICROPY_PY_GENERATOR_PEND_THROW`. -/
def mpObjGenResume (pendThrow : Bool) (self : GenInstance κ γ α) (sendValue : α)
    (throwValue : Option α) (caller : Caller γ ω) :
    Option (Resumed α × GenInstance κ γ α × Caller γ ω) :=
  let codeState := self.codeState
  match codeState.ip with
  | none => some (.returns .normal none, self, caller)
  | some _ =>
    if codeState.sp = -1 then
      if sendValue ≠ objects.constNone then
        some (.raises (objects.typeError
          "can't send non-None value to a just-started generator"), self, caller)
      else genExecute objects body pendThrow self throwValue caller
    else if pendThrow ∧ codeState.state codeState.sp ≠ some objects.constNone then
      let pending := codeState.state codeState.sp
      let state := Function.update codeState.state codeState.sp none
      genExecute objects body pendThrow { self with codeState := { codeState with state := state } }
        pending caller
    else
      let state := Function.update codeState.state codeState.sp (some sendValue)
      genExecute objects body pendThrow { self with codeState := { codeState with state := state } }
        throwValue caller

/-- `gen_resume_and_raise`, from what `mp_obj_gen_resume` does. -/
def genResumeAndRaise : Resumed α → Advanced α
  | .raises exc => .raises exc
  | .returns .normal none => .stop
  | .returns .normal (some ret) =>
    if ret = objects.constNone then .stop else .raises (objects.stopIteration (some ret))
  | .returns .yield ret => .value (ret.getD objects.constNone)
  | .returns .exception ret => .raises (ret.getD objects.constNone)

/-- `gen_instance_send` and `gen_instance_throw`, and `next` on `gen_instance_iternext`, from what
`gen_resume_and_raise` does. -/
def raiseStop : Advanced α → CallResult α
  | .value value => .returns value
  | .stop => .raises (objects.stopIteration none)
  | .raises exc => .raises exc

/-- `gen_instance_close`, from what `mp_obj_gen_resume` does. -/
def genInstanceClose : Resumed α → CallResult α
  | .raises exc => .raises exc
  | .returns .yield _ => .raises (objects.runtimeError "generator ignored GeneratorExit")
  | .returns .exception (some ret) =>
    if objects.isGeneratorExit ret then .returns objects.constNone else .raises ret
  | .returns .exception none => .returns objects.constNone
  | .returns .normal _ => .returns objects.constNone

/-- A call on the generator object. -/
def genCall (pendThrow : Bool) (state : GenInstance κ γ α × Caller γ ω) (call : GenCall α) :
    Option (CallResult α × GenInstance κ γ α × Caller γ ω) :=
  let resume := fun sendValue throwValue =>
    mpObjGenResume objects body pendThrow state.1 sendValue throwValue state.2
  let advance := fun sendValue throwValue =>
    (resume sendValue throwValue).map (Prod.map (raiseStop objects ∘ genResumeAndRaise objects) id)
  match call with
  | .next => advance objects.constNone none
  | .send value => advance value none
  | .throw exc => advance objects.constNone (some exc)
  | .throwTypeAndValue _ value => advance objects.constNone (some value)
  | .close =>
    (resume objects.constNone (some objects.constGeneratorExit)).map
      (Prod.map (genInstanceClose objects) id)

/-! ## The protocol -/

/-- The states of Python's generator protocol. -/
inductive GenState (κ : Type*) where
  | justStarted
  | suspended (rest : κ)
  | finished
deriving DecidableEq

/-- What the body does when it goes on. -/
inductive Ended (α : Type*) where
  | yielded (value : α)
  | returned (value : α)
  | raised (exc : α)

/-- The exception that leaves a generator: no StopIteration does. -/
def escaping (exc : α) : α :=
  if objects.isStopIteration exc then objects.runtimeError "generator raised StopIteration" else exc

/-- Let the body go on from a point. -/
def goOn (home : γ) (caller : Caller γ ω) (point : κ) (resumption : Resumption α) :
    Option (Ended α × GenState κ × Caller γ ω) :=
  (body.run point resumption home caller.world).map fun
    | (.yield _ value rest, world) => (.yielded value, .suspended rest, { caller with world := world })
    | (.return _ value, world) => (.returned value, .finished, { caller with world := world })
    | (.raise exc, world) =>
      (.raised (escaping objects exc), .finished, { caller with world := world })

/-- What a caller of `next`, `send` or `throw` gets. -/
def Ended.toResult : Ended α → CallResult α
  | .yielded value => .returns value
  | .returned value => .raises (objects.stopIteration
      (if value = objects.constNone then none else some value))
  | .raised exc => .raises exc

/-- What a caller of `close` gets. -/
def Ended.toClosed : Ended α → CallResult α
  | .yielded _ => .raises (objects.runtimeError "generator ignored GeneratorExit")
  | .returned _ => .returns objects.constNone
  | .raised exc =>
    if objects.isGeneratorExit exc then .returns objects.constNone else .raises exc

/-- `send`, and `next` as `send(None)`. -/
def protocolSend (home : γ) (state : GenState κ × Caller γ ω) (value : α) :
    Option (CallResult α × GenState κ × Caller γ ω) :=
  match state.1 with
  | .justStarted =>
    if value = objects.constNone then
      (goOn objects body home state.2 body.entry .start).map (Prod.map (Ended.toResult objects) id)
    else some (.raises (objects.typeError
      "can't send non-None value to a just-started generator"), state)
  | .suspended rest =>
    (goOn objects body home state.2 rest (.send value)).map (Prod.map (Ended.toResult objects) id)
  | .finished => some (.raises (objects.stopIteration none), state)

/-- `throw` of what may be made an exception; anything else is refused and changes nothing. -/
def protocolThrow (home : γ) (state : GenState κ × Caller γ ω) (exc : Option α) :
    Option (CallResult α × GenState κ × Caller γ ω) :=
  match exc, state.1 with
  | none, _ => some (.raises (objects.typeError "exceptions must derive from BaseException"), state)
  | some exc, .justStarted => some (.raises (escaping objects exc), .finished, state.2)
  | some exc, .suspended rest =>
    (goOn objects body home state.2 rest (.throw exc)).map (Prod.map (Ended.toResult objects) id)
  | some exc, .finished => some (.raises exc, state)

/-- `close`. -/
def protocolClose (home : γ) (state : GenState κ × Caller γ ω) :
    Option (CallResult α × GenState κ × Caller γ ω) :=
  match state.1 with
  | .justStarted => some (.returns objects.constNone, .finished, state.2)
  | .suspended rest =>
    (goOn objects body home state.2 rest (.throw objects.constGeneratorExit)).map
      (Prod.map (Ended.toClosed objects) id)
  | .finished => some (.returns objects.constNone, state)

/-- A call by the protocol. -/
def protocolCall (home : γ) (state : GenState κ × Caller γ ω) :
    GenCall α → Option (CallResult α × GenState κ × Caller γ ω)
  | .next => protocolSend objects body home state objects.constNone
  | .send value => protocolSend objects body home state value
  | .throw exc => protocolThrow objects body home state (objects.raised exc)
  | .throwTypeAndValue type value =>
    protocolThrow objects body home state (objects.ofTypeAndValue type value)
  | .close => protocolClose objects body home state

omit [DecidableEq α] in
/-! ## The frame as a state of the protocol -/

section Refinement

variable {objects} {body} {home : γ} {pendThrow : Bool} {self : GenInstance κ γ α}
variable {caller : Caller γ ω}

/-- The state of the protocol that a frame encodes. -/
def GenInstance.toState (self : GenInstance κ γ α) : GenState κ :=
  match self.codeState.ip with
  | none => .finished
  | some point => if self.codeState.sp = -1 then .justStarted else .suspended point

/-- What holds of a generator that is not running: it has got its globals back, a frame without a
stack is at the start of the body, and no exception is pending. -/
structure GenInstance.Resting (objects : Objects α) (body : Body κ γ ω α) (home : γ)
    (pendThrow : Bool) (generator : GenInstance κ γ α) : Prop where
  globals : generator.globals = some home
  atEntry : ∀ point, generator.codeState.ip = some point → generator.codeState.sp = -1 → point = body.entry
  notPending : ∀ point, generator.codeState.ip = some point → generator.codeState.sp ≠ -1 →
    pendThrow = true → generator.codeState.state generator.codeState.sp = some objects.constNone

omit [DecidableEq α] in
theorem genWrapCall_resting : (genWrapCall body home).Resting objects body home pendThrow where
  globals := rfl
  atEntry _ isPoint _ := (some.inj isPoint).symm
  notPending _ _ isStarted := absurd rfl isStarted

/-- How a generator object gives what its body does back. -/
def Ended.toResumed : Ended α → Resumed α
  | .yielded value => .returns .yield (some value)
  | .returned value => .returns .normal (some value)
  | .raised exc => .returns .exception (some exc)

/-- What an object and the protocol have in common after a call: how the body has ended, and the
state. -/
def Agrees (objects : Objects α) (body : Body κ γ ω α) (home : γ) (pendThrow : Bool)
    (made : Option (Resumed α × GenInstance κ γ α × Caller γ ω))
    (expected : Option (Ended α × GenState κ × Caller γ ω)) : Prop :=
  (made.map fun (resumed, self, caller) => (resumed, self.toState, caller)) =
      expected.map (fun (ended, state, caller) => (ended.toResumed, state, caller)) ∧
    ∀ resumed self caller, made = some (resumed, self, caller) →
      self.Resting objects body home pendThrow

omit [DecidableEq α] in
/-- What a body gives control back with, stored in the frame and read from it, is what the protocol
says. -/
theorem genExecute_agrees (globals : self.globals = some home) {point : κ}
    (isPoint : self.codeState.ip = some point) {throwValue : Option α} {resumption : Resumption α}
    (resumes : resumption = match throwValue with
      | some thrown => .throw (mpMakeRaiseObj objects thrown)
      | none => if self.codeState.sp = -1 then .start
          else .send ((self.codeState.state self.codeState.sp).getD objects.constNone))
    (started : self.codeState.sp = -1 → throwValue = none) :
    Agrees objects body home pendThrow
      (genExecute objects body pendThrow self throwValue caller)
      (goOn objects body home caller point resumption) := by
  have executes : mpExecuteBytecode objects body
      { self.codeState with oldGlobals := some caller.globals } throwValue home caller.world =
        (body.run point resumption home caller.world).map
          { self.codeState with oldGlobals := some caller.globals }.settle := by
    subst resumes
    cases throwValue with
    | none => simp [mpExecuteBytecode, isPoint]
    | some thrown =>
      have notStarted : self.codeState.sp ≠ -1 := fun atStart => by cases started atStart
      simp [mpExecuteBytecode, isPoint, notStarted]
  simp only [Agrees, genExecute, globals, executes, goOn]
  cases body.run point resumption home caller.world with
  | none => simp
  | some ended =>
    obtain ⟨outcome, world⟩ := ended
    cases outcome with
    | yield depth value rest =>
      have notBelow : ((depth : Int) = -1) ↔ False := by constructor <;> intro; omega; trivial
      refine ⟨?_, ?_⟩
      · simp [CodeState.settle, GenInstance.toState, Ended.toResumed, notBelow]
      · rintro resumed next caller' same
        simp only [map_some, CodeState.settle, some.injEq, Prod.mk.injEq] at same
        obtain ⟨-, rfl, -⟩ := same
        refine ⟨rfl, fun _ _ below => absurd below (by simp [notBelow]), ?_⟩
        intro _ _ _ pends
        simp [pends]
    | «return» depth value =>
      refine ⟨?_, ?_⟩
      · simp [CodeState.settle, GenInstance.toState, Ended.toResumed]
      · rintro resumed next caller' same
        simp only [map_some, CodeState.settle, some.injEq, Prod.mk.injEq] at same
        obtain ⟨-, rfl, -⟩ := same
        exact ⟨rfl, by simp, by simp⟩
    | raise exc =>
      refine ⟨?_, ?_⟩
      · simp [CodeState.settle, GenInstance.toState, Ended.toResumed, escaping]
      · rintro resumed next caller' same
        simp only [map_some, CodeState.settle, some.injEq, Prod.mk.injEq] at same
        obtain ⟨-, rfl, -⟩ := same
        exact ⟨rfl, by simp, by simp⟩

omit [DecidableEq α] in
theorem toState_finished (finished : self.toState = .finished) : self.codeState.ip = none := by
  unfold GenInstance.toState at finished
  split at finished
  · assumption
  · split_ifs at finished

omit [DecidableEq α] in
theorem toState_suspended {rest : κ} (suspended : self.toState = .suspended rest) :
    self.codeState.ip = some rest ∧ self.codeState.sp ≠ -1 := by
  unfold GenInstance.toState at suspended
  split at suspended
  · cases suspended
  · rename_i point isPoint
    split_ifs at suspended with atStart
    cases suspended
    exact ⟨isPoint, atStart⟩

omit [DecidableEq α] in
theorem toState_justStarted (resting : self.Resting objects body home pendThrow)
    (justStarted : self.toState = .justStarted) :
    self.codeState.ip = some body.entry ∧ self.codeState.sp = -1 := by
  unfold GenInstance.toState at justStarted
  split at justStarted
  · cases justStarted
  · rename_i point isPoint
    split_ifs at justStarted with atStart
    rw [isPoint, resting.atEntry point isPoint atStart]
    exact ⟨rfl, atStart⟩

theorem mpObjGenResume_finished (finished : self.codeState.ip = none) (sendValue : α)
    (throwValue : Option α) :
    mpObjGenResume objects body pendThrow self sendValue throwValue caller =
      some (.returns .normal none, self, caller) := by
  simp [mpObjGenResume, finished]

theorem mpObjGenResume_suspended (resting : self.Resting objects body home pendThrow) {rest : κ}
    (suspended : self.toState = .suspended rest) (sendValue : α) (throwValue : Option α)
    (caller : Caller γ ω) :
    Agrees objects body home pendThrow
      (mpObjGenResume objects body pendThrow self sendValue throwValue caller)
      (goOn objects body home caller rest
        (match throwValue with
          | some thrown => .throw (mpMakeRaiseObj objects thrown)
          | none => .send sendValue)) := by
  obtain ⟨isPoint, started⟩ := toState_suspended suspended
  have notPending : ¬(pendThrow = true ∧
      self.codeState.state self.codeState.sp ≠ some objects.constNone) :=
    fun pends => pends.2 (resting.notPending rest isPoint started pends.1)
  have resumes : mpObjGenResume objects body pendThrow self sendValue throwValue caller =
      genExecute objects body pendThrow
        { self with codeState := { self.codeState with
          state := Function.update self.codeState.state self.codeState.sp (some sendValue) } }
        throwValue caller := by
    simp only [mpObjGenResume, isPoint, if_neg started, if_neg notPending]
  rw [resumes]
  apply genExecute_agrees
  · exact resting.globals
  · exact isPoint
  · cases throwValue with
    | some thrown => rfl
    | none => simp [started]
  · exact fun atStart => absurd atStart started

theorem mpObjGenResume_start (resting : self.Resting objects body home pendThrow)
    (justStarted : self.toState = .justStarted) :
    Agrees objects body home pendThrow
      (mpObjGenResume objects body pendThrow self objects.constNone none caller)
      (goOn objects body home caller body.entry .start) := by
  obtain ⟨isPoint, atStart⟩ := toState_justStarted resting justStarted
  simp only [mpObjGenResume, isPoint, if_pos atStart, ne_eq, not_true_eq_false, if_false]
  exact genExecute_agrees resting.globals isPoint (by simp [atStart]) (fun _ => rfl)

/-- What is thrown at a frame that has not started leaves it at once. -/
theorem mpObjGenResume_throw_start (resting : self.Resting objects body home pendThrow)
    (justStarted : self.toState = .justStarted) (thrown : α) (caller : Caller γ ω) :
    ∃ next : GenInstance κ γ α, next.toState = .finished ∧
      next.Resting objects body home pendThrow ∧
      mpObjGenResume objects body pendThrow self objects.constNone (some thrown) caller =
        some (.returns .exception (some (escaping objects (mpMakeRaiseObj objects thrown))), next,
          caller) := by
  obtain ⟨isPoint, atStart⟩ := toState_justStarted resting justStarted
  refine ⟨{ globals := some home, codeState := { self.codeState with
    ip := none, oldGlobals := some caller.globals,
    state := Function.update self.codeState.state 0 (some (mpMakeRaiseObj objects thrown)) } },
    rfl, ⟨rfl, by simp, by simp⟩, ?_⟩
  simp [mpObjGenResume, isPoint, atStart, genExecute, resting.globals, mpExecuteBytecode,
    CodeState.settle, escaping]

end Refinement

/-! ## Calls from outside -/

/-- The calls that a generator object answers as the protocol does: what is thrown is an exception
class or instance, or a class with an instance that needs no making, and the generator has not
finished. -/
def GenCall.Fits (objects : Objects α) (state : GenInstance κ γ α × Caller γ ω) :
    GenCall α → Prop
  | .throw exc => state.1.codeState.ip ≠ none ∧ objects.raised exc ≠ none
  | .throwTypeAndValue type value => state.1.codeState.ip ≠ none ∧ objects.raised value ≠ none ∧
      objects.ofTypeAndValue type value = objects.raised value
  | _ => True

instance (state : GenInstance κ γ α × Caller γ ω) (call : GenCall α) :
    Decidable (call.Fits objects state) :=
  match call with
  | .next => inferInstanceAs (Decidable True)
  | .send _ => inferInstanceAs (Decidable True)
  | .throw _ => inferInstanceAs (Decidable (_ ∧ _))
  | .throwTypeAndValue _ _ => inferInstanceAs (Decidable (_ ∧ _ ∧ _))
  | .close => inferInstanceAs (Decidable True)

section Calls

variable {objects} {body} {home : γ} {pendThrow : Bool} {state : GenInstance κ γ α × Caller γ ω}

omit [DecidableEq α] in
/-- Both sides interpret how the body has ended in the same way. -/
theorem Agrees.interpreted {made : Option (Resumed α × GenInstance κ γ α × Caller γ ω)}
    {expected : Option (Ended α × GenState κ × Caller γ ω)}
    (agrees : Agrees objects body home pendThrow made expected)
    {interpret : Resumed α → CallResult α} {meaning : Ended α → CallResult α}
    (same : ∀ ended : Ended α, interpret ended.toResumed = meaning ended) :
    (made.map (Prod.map interpret id)).map
        (Prod.map id (Prod.map GenInstance.toState id)) =
      expected.map (Prod.map meaning id) := by
  have first := agrees.1
  cases made with
  | none =>
    cases expected with
    | none => rfl
    | some ended => simp at first
  | some back =>
    cases expected with
    | none => simp at first
    | some ended =>
      simp only [map_some, some.injEq, Prod.mk.injEq] at first
      obtain ⟨resumed, isState, isCaller⟩ := first
      simp [Prod.map, resumed, same, isState, isCaller]

theorem advance_interpreted (ended : Ended α) :
    (raiseStop objects ∘ genResumeAndRaise objects) ended.toResumed = ended.toResult objects := by
  cases ended with
  | yielded value => rfl
  | returned value =>
    by_cases isNone : value = objects.constNone
    · simp [Ended.toResumed, genResumeAndRaise, raiseStop, Ended.toResult, isNone]
    · simp [Ended.toResumed, genResumeAndRaise, raiseStop, Ended.toResult, isNone]
  | raised exc => rfl

omit [DecidableEq α] in
theorem close_interpreted (ended : Ended α) :
    genInstanceClose objects ended.toResumed = ended.toClosed objects := by
  cases ended <;> rfl

/-- A call and the protocol correspond, and the generator rests afterwards. -/
def CallAgrees (objects : Objects α) (body : Body κ γ ω α) (home : γ) (pendThrow : Bool)
    (made : Option (CallResult α × GenInstance κ γ α × Caller γ ω))
    (expected : Option (CallResult α × GenState κ × Caller γ ω)) : Prop :=
  made.map (Prod.map id (Prod.map GenInstance.toState id)) = expected ∧
    ∀ response next, made = some (response, next) → next.1.Resting objects body home pendThrow

omit [DecidableEq α] in
theorem Agrees.callAgrees {made : Option (Resumed α × GenInstance κ γ α × Caller γ ω)}
    {expected : Option (Ended α × GenState κ × Caller γ ω)}
    (agrees : Agrees objects body home pendThrow made expected)
    {interpret : Resumed α → CallResult α} {meaning : Ended α → CallResult α}
    (same : ∀ ended : Ended α, interpret ended.toResumed = meaning ended) :
    CallAgrees objects body home pendThrow (made.map (Prod.map interpret id))
      (expected.map (Prod.map meaning id)) := by
  refine ⟨agrees.interpreted same, ?_⟩
  rintro response ⟨next, caller⟩ comes
  obtain ⟨⟨resumed, after⟩, isMade, isNext⟩ := map_eq_some_iff.mp comes
  cases isNext
  exact agrees.2 resumed next caller isMade

variable (resting : state.1.Resting objects body home pendThrow)
include resting

omit [DecidableEq α] in
/-- A call that leaves the generator as it is. -/
theorem callAgrees_unchanged (response : CallResult α) :
    CallAgrees objects body home pendThrow (some (response, state))
      (some (response, state.1.toState, state.2)) := by
  refine ⟨rfl, ?_⟩
  rintro other next same
  cases same
  exact resting

theorem genSend_agrees (value : α) :
    CallAgrees objects body home pendThrow
      (genCall objects body pendThrow state (.send value))
      (protocolSend objects body home (state.1.toState, state.2) value) := by
  cases encodes : state.1.toState with
  | finished =>
    have unchanged := callAgrees_unchanged resting (.raises (objects.stopIteration none))
    rw [encodes] at unchanged
    simpa [genCall, mpObjGenResume_finished (toState_finished encodes), protocolSend,
      genResumeAndRaise, raiseStop] using unchanged
  | suspended rest =>
    exact (mpObjGenResume_suspended resting encodes value none state.2).callAgrees advance_interpreted
  | justStarted =>
    by_cases isNone : value = objects.constNone
    · simp only [genCall, protocolSend, if_pos isNone]
      rw [isNone]
      exact (mpObjGenResume_start resting encodes).callAgrees advance_interpreted
    · have unchanged := callAgrees_unchanged resting (.raises (objects.typeError
        "can't send non-None value to a just-started generator"))
      obtain ⟨isPoint, atStart⟩ := toState_justStarted resting encodes
      rw [encodes] at unchanged
      simpa [genCall, mpObjGenResume, isPoint, atStart, isNone, protocolSend, genResumeAndRaise,
        raiseStop] using unchanged

theorem genThrow_agrees {thrown exc : α} (raised : objects.raised thrown = some exc)
    (running : state.1.codeState.ip ≠ none) :
    CallAgrees objects body home pendThrow
      (genCall objects body pendThrow state (.throw thrown))
      (protocolThrow objects body home (state.1.toState, state.2) (some exc)) := by
  have makes : mpMakeRaiseObj objects thrown = exc := by rw [mpMakeRaiseObj, raised]; rfl
  cases encodes : state.1.toState with
  | finished => exact absurd (toState_finished encodes) running
  | suspended rest =>
    have agrees := mpObjGenResume_suspended resting encodes objects.constNone (some thrown) state.2
    simp only [makes] at agrees
    exact agrees.callAgrees advance_interpreted
  | justStarted =>
    obtain ⟨next, isFinished, nextRests, comes⟩ :=
      mpObjGenResume_throw_start resting encodes thrown state.2
    rw [makes] at comes
    refine ⟨by simp [genCall, comes, protocolThrow, genResumeAndRaise, raiseStop, isFinished], ?_⟩
    rintro response after same
    simp only [genCall, comes, map_some, some.injEq, Prod.map, id_eq,
      Prod.mk.injEq] at same
    rw [← same.2]
    exact nextRests

theorem genClose_agrees :
    CallAgrees objects body home pendThrow
      (genCall objects body pendThrow state .close)
      (protocolClose objects body home (state.1.toState, state.2)) := by
  have makes : mpMakeRaiseObj objects objects.constGeneratorExit = objects.constGeneratorExit := by
    rw [mpMakeRaiseObj, objects.raised_generatorExit]; rfl
  cases encodes : state.1.toState with
  | finished =>
    have unchanged := callAgrees_unchanged resting (.returns objects.constNone)
    rw [encodes] at unchanged
    simpa [genCall, mpObjGenResume_finished (toState_finished encodes), protocolClose,
      genInstanceClose] using unchanged
  | suspended rest =>
    have agrees := mpObjGenResume_suspended resting encodes objects.constNone
      (some objects.constGeneratorExit) state.2
    simp only [makes] at agrees
    exact agrees.callAgrees close_interpreted
  | justStarted =>
    obtain ⟨next, isFinished, nextRests, comes⟩ := mpObjGenResume_throw_start resting encodes
      objects.constGeneratorExit state.2
    rw [makes, escaping, objects.generatorExit_not_stopIteration, if_neg Bool.false_ne_true]
      at comes
    refine ⟨by simp [genCall, comes, protocolClose, genInstanceClose, isFinished,
      objects.generatorExit_isGeneratorExit], ?_⟩
    rintro response after same
    simp only [genCall, comes, map_some, some.injEq, Prod.map, id_eq,
      Prod.mk.injEq] at same
    rw [← same.2]
    exact nextRests

theorem genCall_agrees {call : GenCall α} (fits : call.Fits objects state) :
    CallAgrees objects body home pendThrow
      (genCall objects body pendThrow state call)
      (protocolCall objects body home (state.1.toState, state.2) call) := by
  cases call with
  | next => exact genSend_agrees resting objects.constNone
  | send value => exact genSend_agrees resting value
  | throw thrown =>
    obtain ⟨running, raises⟩ := fits
    obtain ⟨exc, raised⟩ := ne_none_iff_exists'.mp raises
    rw [protocolCall, raised]
    exact genThrow_agrees resting raised running
  | throwTypeAndValue type thrown =>
    obtain ⟨running, raises, given⟩ := fits
    obtain ⟨exc, raised⟩ := ne_none_iff_exists'.mp raises
    rw [protocolCall, given, raised]
    exact genThrow_agrees resting raised running
  | close => exact genClose_agrees resting

omit resting

/-- A generator object answers a sequence of calls as the protocol does, as long as each call
fits. -/
theorem generator_protocol (globals : γ) (caller : Caller γ ω) (calls : List (GenCall α))
    (fit : ∀ made ∈ attempted (genCall objects body pendThrow) (genWrapCall body globals, caller) calls,
      made.2.Fits objects made.1) :
    (responses (genCall objects body pendThrow) (genWrapCall body globals, caller) calls).map
        (Option.map (Prod.map id (Prod.map GenInstance.toState id))) =
      responses (protocolCall objects body globals) (.justStarted, caller) calls := by
  refine responses_simulates (Prod.map GenInstance.toState id)
    (fun state => state.1.Resting objects body globals pendThrow)
    (fun state call => call.Fits objects state) ?_ ?_ genWrapCall_resting calls fit
  · exact fun resting fits => (genCall_agrees resting fits).1
  · exact fun resting fits comes => (genCall_agrees resting fits).2 _ _ comes

end Calls

/-! ## A generator that yields once -/

/-- Some objects: `None`, numbers, exception classes and exceptions. -/
inductive SampleObject where
  | none
  | int (value : Int)
  | excType (name : String)
  | exc (name : String) (message : String)
deriving DecidableEq

/-- The functions of these objects. -/
def sampleObjects : Objects SampleObject where
  constNone := .none
  constGeneratorExit := .exc "GeneratorExit" ""
  raised
    | .excType name => some (.exc name "")
    | .exc name message => some (.exc name message)
    | _ => Option.none
  ofTypeAndValue
    | .excType _, .exc name message => some (.exc name message)
    | .excType name, .none => some (.exc name "")
    | _, _ => Option.none
  isStopIteration
    | .exc name _ => name = "StopIteration"
    | _ => false
  isGeneratorExit
    | .exc name _ => name = "GeneratorExit"
    | _ => false
  stopIteration _ := .exc "StopIteration" ""
  typeError := .exc "TypeError"
  runtimeError := .exc "RuntimeError"
  valueError := .exc "ValueError"
  raised_generatorExit := rfl
  generatorExit_isGeneratorExit := rfl
  generatorExit_not_stopIteration := rfl

/-- `def gen(): yield 1`. -/
def yieldsOnce : Body Bool Unit Unit SampleObject where
  entry := false
  run
    | false, _, _, world => some (.yield 0 (.int 1) true, world)
    | true, .throw exc, _, world => some (.raise exc, world)
    | true, _, _, world => some (.return 0 .none, world)

/-- The calls of one use, each of which fits. -/
theorem generator_protocol_yieldsOnce :
    (responses (genCall sampleObjects yieldsOnce true)
        (genWrapCall yieldsOnce (), ⟨(), ()⟩)
        [.send (.int 5), .next, .throw (.excType "ValueError"), .next, .close]).map
      (Option.map (Prod.map id (Prod.map GenInstance.toState id))) =
    responses (protocolCall sampleObjects yieldsOnce ()) (.justStarted, ⟨(), ()⟩)
      [.send (.int 5), .next, .throw (.excType "ValueError"), .next, .close] :=
  generator_protocol () ⟨(), ()⟩ _ (by decide)

/-- What is thrown at a generator that has finished is lost: the caller gets StopIteration. -/
theorem generator_protocol_throw_finished :
    (responses (genCall sampleObjects yieldsOnce true)
        (genWrapCall yieldsOnce (), ⟨(), ()⟩)
        [.next, .next, .throw (.excType "ValueError")]).map
      (Option.map (Prod.map id (Prod.map GenInstance.toState id))) ≠
    responses (protocolCall sampleObjects yieldsOnce ()) (.justStarted, ⟨(), ()⟩)
      [.next, .next, .throw (.excType "ValueError")] := by
  decide

end MultiPython.Vm
