import MultiPython.Esp32.Response
import MultiPython.Qstr.Interning

/-!
# Conditions that are strings

A script's short strings are interned, and what a response keeps as its condition is the qstr
of the context that registered it. `notify` compares it with a qstr of the context that it
runs in, by number. Every context has pools of its own, so the numbers of two
contexts agree on the constant strings, and beyond these only as far as both contexts
interned the same new strings in the same order.
-/

namespace MultiPython.Esp32

open Context Logic Qstr List

variable {ε : Type}

/-- `mp_obj_t`, as far as `mp_obj_equal` tells objects apart. A string on the heap has its hash,
or 0, and its bytes. -/
inductive MpObj where
  | none
  | smallInt (value : Int)
  | qstr (q : Nat)
  | str (address hash : Nat) (data : List UInt8)
  | object (address : Nat) (isFloat : Bool)
deriving DecidableEq, Repr

namespace MpObj

/-- `mp_obj_is_str`. -/
def isStr : MpObj → Bool
  | .qstr _ | .str _ _ _ => true
  | _ => false

/-- The object is a float, which may be different from itself. -/
def isFloat : MpObj → Bool
  | .object _ isFloat => isFloat
  | _ => false

end MpObj

section Equal

variable (config : QstrConfig) (memory : QstrState)

/-- `GET_STR_HASH` and `GET_STR_DATA_LEN`: the hash and the bytes of a string, where a qstr is
looked up in the pools of the running context. -/
def strData : MpObj → Option (Nat × List UInt8)
  | .qstr q => do
      let data ← memory.read (← QstrState.findQstr memory.pools q)
      some (qGetHash config data, (qGetData config data).take (qGetLength config data))
  | .str _ hash data => some (hash, data)
  | _ => none

def mpObjStrEqual (s1 s2 : MpObj) : Bool :=
  match s1, s2 with
  | .qstr q1, .qstr q2 => q1 == q2
  | _, _ =>
    match strData config memory s1, strData config memory s2 with
    | some (h1, d1), some (h2, d2) =>
      if h1 ≠ 0 ∧ h2 ≠ 0 ∧ h1 ≠ h2 then false else d1 == d2
    | _, _ => false

/-- `mp_obj_equal`; `binaryOp` is the `MP_BINARY_OP_EQUAL` of the first object's type. -/
def mpObjEqual (binaryOp : MpObj → MpObj → Except ε Bool) (o1 o2 : MpObj) : Except ε Bool :=
  if o1 = o2 ∧ o1.isFloat = false then
    .ok true
  else if o1 = .none ∨ o2 = .none then
    .ok false
  else
    match o1, o2 with
    | .smallInt _, .smallInt _ => .ok false
    | .smallInt value, other => generic other (.smallInt value)
    | _, _ => generic o1 o2
where
  /-- The rest of `mp_obj_equal`, with a small integer in second place. -/
  generic (o1 o2 : MpObj) : Except ε Bool :=
    if o1.isStr then
      if o2.isStr then .ok (mpObjStrEqual config memory o1 o2) else .ok false
    else if o2.isStr then
      .ok false
    else
      binaryOp o1 o2

theorem mpObjEqual_qstr (binaryOp : MpObj → MpObj → Except ε Bool) (q1 q2 : Nat) :
    mpObjEqual config memory binaryOp (.qstr q1) (.qstr q2) = .ok (decide (q1 = q2)) := by
  by_cases same : q1 = q2
  · simp [mpObjEqual, MpObj.isFloat, same]
  · simp [mpObjEqual, mpObjEqual.generic, MpObj.isFloat, MpObj.isStr, mpObjStrEqual, same]

theorem mpObjEqual_qstr_none (binaryOp : MpObj → MpObj → Except ε Bool) (q : Nat) :
    mpObjEqual config memory binaryOp (.qstr q) .none = .ok false := by
  simp [mpObjEqual]

end Equal

/-- A context interned the string that a response waits for, and another context, whose strings
are in `memory`, notifies of its own qstr `q`: the response is followed. -/
def Matched (config : QstrConfig) (memory : QstrState) (binaryOp : MpObj → MpObj → Except ε Bool)
    (queues : Ref → MpResponseQueue (MpResponse MpObj)) (node : MultipythonResponseNode MpObj)
    (q : Nat) : Prop :=
  node ∈ (multipythonNotify (mpObjEqual config memory binaryOp) .none ⟨[node], queues⟩
    (.qstr q)).followed

/-- `notify` follows a response exactly if the numbers agree. -/
theorem matched_iff (config : QstrConfig) (memory : QstrState)
    (binaryOp : MpObj → MpObj → Except ε Bool)
    (queues : Ref → MpResponseQueue (MpResponse MpObj)) {node : MultipythonResponseNode MpObj}
    {registered : Nat} (waits : node.response.condition = .qstr registered) (q : Nat) :
    Matched config memory binaryOp queues node q ↔ registered = q := by
  have passed : passes (mpObjEqual config memory binaryOp) .none (.qstr q) = true := by
    simp [passes, mpObjEqual_qstr_none]
  have compares : mpObjEqual config memory binaryOp node.response.condition (.qstr q) =
      .ok (decide (registered = q)) := by
    rw [waits]
    exact mpObjEqual_qstr config memory binaryOp registered q
  rw [Matched, (multipythonNotify_followed _ _ _ _).1, if_pos passed]
  simp [compared, answers, compares, Except.isOk, Except.toBool]

section Contexts

variable {config : QstrConfig} {consts : ConstPools} {a b : Interner}

/-- One of the contexts interned, beyond the constants, what the other one did and then
perhaps more. -/
def SameOrder (consts : ConstPools) (a b : Interner) : Prop :=
  newStrings consts.strings a.known <+: newStrings consts.strings b.known ∨
    newStrings consts.strings b.known <+: newStrings consts.strings a.known

theorem agree_of_prefix {one other : List (List UInt8)} (continued : one <+: other)
    (distinct : other.Nodup) {i j : Nat} {str different : List UInt8} (here : one[i]? = some str)
    (there : other[j]? = some different) : i = j ↔ str = different := by
  obtain ⟨inOne, isStr⟩ := List.getElem?_eq_some_iff.mp here
  have inOther : other[i]? = some str := by
    rw [prefix_iff_getElem?.mp continued i inOne, isStr]
  obtain ⟨bound, _⟩ := List.getElem?_eq_some_iff.mp inOther
  constructor
  · rintro rfl
    exact Option.some.inj (inOther.symm.trans there)
  · rintro rfl
    exact (List.getElem?_inj bound distinct).mp (inOther.trans there.symm)

theorem places_agree_iff (holdsA : InternerInvariant config consts a)
    (holdsB : InternerInvariant config consts b) :
    (∀ (i j : Nat) (str other : List UInt8), (a.interned consts)[i]? = some str →
      (b.interned consts)[j]? = some other → (i = j ↔ str = other)) ↔ SameOrder consts a b := by
  have distinctA := holdsA.ready.1.distinct
  have distinctB := holdsB.ready.1.distinct
  have same : SameOrder consts a b ↔ a.interned consts <+: b.interned consts ∨
      b.interned consts <+: a.interned consts := by
    rw [Interner.interned, Interner.interned, prefix_append_right_inj,
      prefix_append_right_inj]
    rfl
  rw [same]
  constructor
  · intro agree
    have equal : ∀ i, i < (a.interned consts).length → i < (b.interned consts).length →
        (a.interned consts)[i]? = (b.interned consts)[i]? := by
      intro i inA inB
      rw [List.getElem?_eq_getElem inA, List.getElem?_eq_getElem inB, Option.some.injEq]
      exact (agree i i _ _ (List.getElem?_eq_getElem inA) (List.getElem?_eq_getElem inB)).mp rfl
    rcases le_total (a.interned consts).length (b.interned consts).length with shorter | shorter
    · refine .inl (prefix_iff_getElem?.mpr fun i bound => ?_)
      rw [← equal i bound (bound.trans_le shorter), List.getElem?_eq_getElem bound]
    · refine .inr (prefix_iff_getElem?.mpr fun i bound => ?_)
      rw [equal i (bound.trans_le shorter) bound, List.getElem?_eq_getElem bound]
  · rintro (continued | continued) i j str other here there
    · exact agree_of_prefix continued distinctB here there
    · have turned := agree_of_prefix continued distinctA there here
      exact ⟨fun same => (turned.mp same.symm).symm, fun same => (turned.mpr same.symm).symm⟩

/-- In two contexts with any histories of interning: the conditions that one of them registered
and the other one notifies of match by their strings exactly if the new strings of one
are the first new strings of the other, in the same order. -/
theorem conditions_match_iff (supported : config.Supported) (built : consts.WellBuilt config)
    {runA runB : List (QstrEvent × Interner)}
    (runsA : Run (Interner.Step config) (Interner.qstrInit config consts) runA)
    (runsB : Run (Interner.Step config) (Interner.qstrInit config consts) runB)
    (securedA : ∀ taken ∈ fired (Interner.qstrInit config consts) runA,
      taken.1.Secured config taken.2)
    (securedB : ∀ taken ∈ fired (Interner.qstrInit config consts) runB,
      taken.1.Secured config taken.2)
    (reachedA : a ∈ visited (Interner.qstrInit config consts) runA)
    (reachedB : b ∈ visited (Interner.qstrInit config consts) runB)
    (binaryOp : MpObj → MpObj → Except ε Bool)
    (queues : Ref → MpResponseQueue (MpResponse MpObj)) :
    (∀ registered ∈ a.known, ∀ notified ∈ b.known, ∀ node : MultipythonResponseNode MpObj,
      node.response.condition = .qstr registered.2 →
        (Matched config b.memory binaryOp queues node notified.2 ↔ registered.1 = notified.1)) ↔
      SameOrder consts a b := by
  have holdsA := interner_invariant supported built runsA securedA a reachedA
  have holdsB := interner_invariant supported built runsB securedB b reachedB
  rw [← places_agree_iff holdsA holdsB]
  constructor
  · intro agree i j str other here there
    let node : MultipythonResponseNode MpObj := ⟨⟨.qstr (i + 1), 0, 0, .none⟩, Option.none⟩
    have matched := agree _ (holdsA.known_of_place here) _ (holdsB.known_of_place there) node rfl
    rw [matched_iff config b.memory binaryOp queues (show node.response.condition = _ from rfl)]
      at matched
    simpa using matched
  · rintro agree ⟨str, q⟩ known ⟨other, notified⟩ otherKnown node waits
    rw [matched_iff config b.memory binaryOp queues waits]
    obtain ⟨i, rfl, here⟩ := holdsA.place known
    obtain ⟨j, rfl, there⟩ := holdsB.place otherKnown
    simpa using agree i j str other here there

end Contexts

/-- Both contexts interned the same new string first, and the second one another one since. -/
theorem conditions_match_same_order :
    ∃ a b : Interner, a.known.drop 9 = [([120], 10)] ∧ b.known.drop 9 = [([120], 10), ([121], 11)] ∧
      ∀ registered ∈ a.known, ∀ notified ∈ b.known, ∀ node : MultipythonResponseNode MpObj,
        node.response.condition = .qstr registered.2 →
          (Matched (ε := Unit) defaultConfig b.memory (fun _ _ => .ok false)
            (fun _ => .empty fun _ => ⟨0, .none⟩) node notified.2 ↔ registered.1 = notified.1) := by
  let start := Interner.qstrInit defaultConfig nineConsts
  let runA := trace (Interner.next defaultConfig) start [.qstrFromStrn [120] (plentiful true)]
  let runB := trace (Interner.next defaultConfig) start
    [.qstrFromStrn [120] (plentiful true), .qstrFromStrn [121] (plentiful true)]
  have runsA : Run (Interner.Step defaultConfig) start runA :=
    Run.of_trace (fun _ event => Interner.Fits defaultConfig event)
      (fun fits happens => ⟨fits, happens⟩) _ (by decide +kernel)
  have runsB : Run (Interner.Step defaultConfig) start runB :=
    Run.of_trace (fun _ event => Interner.Fits defaultConfig event)
      (fun fits happens => ⟨fits, happens⟩) _ (by decide +kernel)
  refine ⟨(visited start runA).getLast (cons_ne_nil _ _),
    (visited start runB).getLast (cons_ne_nil _ _), by decide +kernel, by decide +kernel, ?_⟩
  have built : nineConsts.WellBuilt defaultConfig := ⟨by decide, by decide, by decide, rfl⟩
  refine (conditions_match_iff ⟨Or.inr rfl, Or.inl rfl⟩ built runsA runsB (by decide +kernel)
    (by decide +kernel) (getLast_mem _) (getLast_mem _) _ _).mpr (Or.inl ?_)
  decide +kernel

/-- Two contexts intern one new string each. A response to the one is followed when the other
is notified. -/
theorem conditions_match_different_strings :
    ∃ runA runB : List (QstrEvent × Interner),
      Run (Interner.Step defaultConfig) (Interner.qstrInit defaultConfig nineConsts) runA ∧
      Run (Interner.Step defaultConfig) (Interner.qstrInit defaultConfig nineConsts) runB ∧
      ∃ a ∈ visited (Interner.qstrInit defaultConfig nineConsts) runA,
      ∃ b ∈ visited (Interner.qstrInit defaultConfig nineConsts) runB,
        ([120], 10) ∈ a.known ∧ ([121], 10) ∈ b.known ∧
          Matched (ε := Unit) defaultConfig b.memory (fun _ _ => .ok false)
            (fun _ => .empty fun _ => ⟨0, .none⟩) ⟨⟨.qstr 10, 4, 0, .none⟩, none⟩ 10 := by
  let start := Interner.qstrInit defaultConfig nineConsts
  let runA := trace (Interner.next defaultConfig) start [.qstrFromStrn [120] (plentiful true)]
  let runB := trace (Interner.next defaultConfig) start [.qstrFromStrn [121] (plentiful true)]
  have runsA : Run (Interner.Step defaultConfig) start runA :=
    Run.of_trace (fun _ event => Interner.Fits defaultConfig event)
      (fun fits happens => ⟨fits, happens⟩) _ (by decide +kernel)
  have runsB : Run (Interner.Step defaultConfig) start runB :=
    Run.of_trace (fun _ event => Interner.Fits defaultConfig event)
      (fun fits happens => ⟨fits, happens⟩) _ (by decide +kernel)
  exact ⟨runA, runB, runsA, runsB, (visited start runA).getLast (cons_ne_nil _ _),
    getLast_mem _, (visited start runB).getLast (cons_ne_nil _ _), getLast_mem _,
    by decide +kernel, by decide +kernel,
    (matched_iff defaultConfig _ (fun _ _ => .ok false) _ rfl 10).mpr rfl⟩

end MultiPython.Esp32
