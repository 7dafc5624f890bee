import MultiPython.Compile.Condition

/-!
# Elements of parenthesised tuples

Code that `c_if_cond` emits takes a parenthesised tuple for a constant. So it runs what Python runs
if and only if Python comes to no tuple with an element that is not a constant.
-/

namespace MultiPython.Compile

open Logic Option

section Items

variable {ι : Type} (env : Env ι) {code : List (Instr ι)} {stack : List Bool}

/-- Is an element of a parenthesised tuple run. -/
def Event.isItem : Event ι → Bool
  | .item _ => true
  | _ => false

/-- How many elements of parenthesised tuples were run. -/
def itemsRun (trace : List (Event ι)) : Nat := trace.countP Event.isItem

@[simp]
theorem itemsRun_append (trace : List (Event ι)) (event : Event ι) :
    itemsRun (trace ++ [event]) = itemsRun trace + if event.isItem then 1 else 0 := by
  rw [itemsRun, List.countP_append, List.countP_singleton, itemsRun]

/-- What was run before the end of a run. -/
def Halt.trace : Halt ι → List (Event ι)
  | .raised trace => trace
  | .left _ trace => trace

/-- What was run before a place of a run. -/
def placeTrace : Place (Frame ι) (Halt ι) → List (Event ι)
  | .running _ frame => frame.trace
  | .halted halt => halt.trace

theorem condPlace_trace (behind : Nat) (jumpIf : Bool) (label : Nat) (tested : Tested ι) :
    placeTrace (condPlace env code behind jumpIf label stack tested) = tested.1 := by
  obtain ⟨trace, truth⟩ := tested
  cases truth with
  | none => rfl
  | some truth => rfl

/-- What was run after an instruction. -/
def effectTrace : Effect (Frame ι) (Halt ι) → List (Event ι)
  | .next frame => frame.trace
  | .jump _ frame => frame.trace
  | .halt halt => halt.trace

/-- An instruction runs no element of a parenthesised tuple. -/
theorem run_itemsRun (instr : Instr ι) (frame : Frame ι) (effect : Effect (Frame ι) (Halt ι))
    (runs : run env instr frame = some effect) :
    itemsRun (effectTrace effect) = itemsRun frame.trace := by
  obtain ⟨stack, trace⟩ := frame
  cases instr with
  | node e =>
    have ran : itemsRun (trace ++ [.node e]) = itemsRun trace := itemsRun_append trace _
    rw [run, some.injEq] at runs
    subst runs
    cases isTruth : env.truth trace (.node e) with
    | none => exact ran
    | some truth => exact ran
  | jump label =>
    cases runs
    rfl
  | popJumpIf cond label =>
    cases stack with
    | nil => cases runs
    | cons truth stack =>
      rw [run, some.injEq] at runs
      subst runs
      split_ifs <;> rfl
  | labelAssign label =>
    cases runs
    rfl
  | block name loop =>
    have ran : itemsRun (trace ++ [.block name]) = itemsRun trace := itemsRun_append trace _
    rw [run, some.injEq] at runs
    subst runs
    unfold leave
    split <;> exact ran

theorem reaches_itemsRun {pc : Nat} {frame : Frame ι} {place : Place (Frame ι) (Halt ι)}
    (reaches : (machine env).Reaches code (.running pc frame) place) :
    itemsRun (placeTrace place) = itemsRun frame.trace := by
  have kept := reaches.invariant (fun later => itemsRun later.trace = itemsRun frame.trace)
    (fun halt => itemsRun halt.trace = itemsRun frame.trace) ?_ rfl
  · cases place with
    | running pc frame => exact kept
    | halted halt => exact kept
  · intro instr _ later effect holds runs
    have after := (run_itemsRun env instr later effect runs).trans holds
    cases effect with
    | next frame => exact after
    | jump label frame => exact after
    | halt halt => exact after

theorem evalItems_grows (items : List (Option ι)) (trace : List (Event ι)) :
    itemsRun trace ≤ itemsRun (evalItems env items trace).1 := by
  induction items generalizing trace with
  | nil => exact le_rfl
  | cons item items ih =>
    cases item with
    | none => exact ih trace
    | some e =>
      have ran : itemsRun trace ≤ itemsRun (trace ++ [.item e]) := by simp
      rw [evalItems]
      split
      · exact ran
      · exact ran.trans (ih _)

theorem evalItems_same (items : List (Option ι)) (trace : List (Event ι))
    (same : itemsRun (evalItems env items trace).1 = itemsRun trace) :
    evalItems env items trace = (trace, true) := by
  induction items with
  | nil => rfl
  | cons item items ih =>
    cases item with
    | none => exact ih same
    | some e =>
      have ran : itemsRun (trace ++ [.item e]) = itemsRun trace + 1 := itemsRun_append trace _
      have grows := evalItems_grows env items (trace ++ [.item e])
      rw [evalItems] at same
      split at same
      · exact absurd (ran.symm.trans same) (Nat.succ_ne_self _)
      · omega

mutual

theorem evalCond_grows (cond : Cond ι) (trace : List (Event ι)) :
    itemsRun trace ≤ itemsRun (evalCond env (evalParen env) cond trace).1 := by
  cases cond with
  | const leaf => exact le_rfl
  | node e => exact (itemsRun_append trace (.node e)).ge
  | notTest cond => exact evalCond_grows cond trace
  | andTest nodes => exact evalConds_grows false nodes trace
  | orTest nodes => exact evalConds_grows true nodes trace
  | atomParen items => exact evalItems_grows env items trace

theorem evalConds_grows (decides : Bool) (nodes : Conds ι) (trace : List (Event ι)) :
    itemsRun trace ≤ itemsRun (evalConds env (evalParen env) decides nodes trace).1 := by
  cases nodes with
  | last cond => exact evalCond_grows cond trace
  | cons cond rest =>
    have first := evalCond_grows cond trace
    rw [evalConds]
    split
    · exact first.trans (evalConds_grows decides rest _)
    · exact first

end

mutual

theorem evalCond_same (cond : Cond ι) (trace : List (Event ι))
    (same : itemsRun (evalCond env (evalParen env) cond trace).1 = itemsRun trace) :
    evalCond env skipParen cond trace = evalCond env (evalParen env) cond trace := by
  cases cond with
  | const leaf => rfl
  | node e => rfl
  | notTest cond =>
    rw [evalCond, evalCond, evalCond_same cond trace same]
  | andTest nodes => exact evalConds_same false nodes trace same
  | orTest nodes => exact evalConds_same true nodes trace same
  | atomParen items =>
    have all := evalItems_same env items trace same
    rw [evalCond, evalCond, evalParen, all]
    rfl

theorem evalConds_same (decides : Bool) (nodes : Conds ι) (trace : List (Event ι))
    (same : itemsRun (evalConds env (evalParen env) decides nodes trace).1 = itemsRun trace) :
    evalConds env skipParen decides nodes trace =
      evalConds env (evalParen env) decides nodes trace := by
  cases nodes with
  | last cond => exact evalCond_same cond trace same
  | cons cond rest =>
    have grows := evalCond_grows env cond trace
    by_cases goes : (evalCond env (evalParen env) cond trace).2 = some (!decides)
    · have tested : evalCond env (evalParen env) cond trace =
          ((evalCond env (evalParen env) cond trace).1, some (!decides)) := by rw [← goes]
      rw [evalConds_goes env tested] at same ⊢
      have growsRest := evalConds_grows env decides rest
        (evalCond env (evalParen env) cond trace).1
      have first := evalCond_same cond trace (by omega)
      rw [evalConds_goes env (first.trans tested)]
      exact evalConds_same decides rest _ (by omega)
    · rw [evalConds_stops env rfl goes] at same ⊢
      have first := evalCond_same cond trace same
      exact evalConds_stops env first goes rest

end

theorem cIfCond_iff (distinct : ((machine env).labels code).Nodup) (cond : Cond ι) (jumpIf : Bool)
    (label next pc : Nat) (trace : List (Event ι))
    (located : PieceAt code pc (cIfCond cond jumpIf label next).code) :
    (machine env).Reaches code (.running pc ⟨stack, trace⟩)
        (condPlace env code (pc + (cIfCond cond jumpIf label next).code.length) jumpIf label stack
          (evalCond env (evalParen env) cond trace)) ↔
      itemsRun (evalCond env (evalParen env) cond trace).1 = itemsRun trace := by
  constructor
  · intro reaches
    have kept := reaches_itemsRun env reaches
    rw [condPlace_trace] at kept
    exact kept
  · intro same
    have runs := @cIfCond_runs ι env code stack distinct cond jumpIf label next pc trace located
    rw [evalCond_same env cond trace same] at runs
    exact runs

end Items

end MultiPython.Compile
