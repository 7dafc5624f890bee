import MultiPython.Context.Queue
import MultiPython.Context.Store

/-!
# Responses and notifications

The responses of `modmultipython.c`: scripts register what a context is to be sent
on a condition, and `notify` sends it. The registered responses are one list for
all contexts; what a context was sent waits in its own queue. Comparing two
objects is a parameter, because it may run a script that raises.
-/

namespace MultiPython.Esp32

open Context List

variable {Obj ε : Type}

/-- `mp_response_t`. -/
structure MpResponse (Obj : Type) where
  controlOp : Nat
  argument : Obj
deriving DecidableEq, Repr

/-- `multipython_response_obj_t`. -/
structure MultipythonResponseObj (Obj : Type) where
  condition : Obj
  context : Ref
  controlOp : Int
  argument : Obj
deriving DecidableEq, Repr

/-- The entry that a response puts into a queue; `control_op` is one byte there. -/
def MultipythonResponseObj.entry (response : MultipythonResponseObj Obj) : MpResponse Obj :=
  ⟨(response.controlOp % 256).toNat, response.argument⟩

/-- `multipython_response_node_t`. The second field is no part of the node: it is the context
that the response was registered for, told apart from later contexts at the same
address, and `none` if there was no context at the address. -/
structure MultipythonResponseNode (Obj : Type) where
  response : MultipythonResponseObj Obj
  registeredFor : Option Nat
deriving DecidableEq, Repr

/-- The list at `multipython_response_head` and the queues of the contexts, by address. -/
structure Responses (Obj : Type) where
  head : List (MultipythonResponseNode Obj)
  queues : Ref → MpResponseQueue (MpResponse Obj)

/-- What a call of `notify` did: the nodes whose context it wrote to, in order, and the
exception it ended with. -/
structure Notified (Obj ε : Type) where
  responses : Responses Obj
  followed : List (MultipythonResponseNode Obj)
  raised : Option ε

/-- Write an entry to the queue of the context of a response. -/
def Responses.send (responses : Responses Obj) (response : MultipythonResponseObj Obj) :
    Responses Obj :=
  { responses with
    queues := Function.update responses.queues response.context
      (mpResponseQueueWrite (responses.queues response.context) response.entry).1 }

variable (equal : Obj → Obj → Except ε Bool)

/-- The loop of `multipython_notify` over the rest of the list. -/
def notifyLoop (condition : Obj) :
    Responses Obj → List (MultipythonResponseNode Obj) → Notified Obj ε
  | responses, [] => ⟨responses, [], none⟩
  | responses, node :: rest =>
    match equal node.response.condition condition with
    | .error exception => ⟨responses, [], some exception⟩
    | .ok false => notifyLoop condition responses rest
    | .ok true =>
      let later := notifyLoop condition (responses.send node.response) rest
      { later with followed := node :: later.followed }

def multipythonNotify (mpConstNone : Obj) (responses : Responses Obj) (condition : Obj) :
    Notified Obj ε :=
  match equal condition mpConstNone with
  | .error exception => ⟨responses, [], some exception⟩
  | .ok true => ⟨responses, [], none⟩
  | .ok false => notifyLoop equal condition responses responses.head

/-- The arguments of `multipython.response`, each with its default. -/
structure ResponseArgs (Obj : Type) where
  condition : Option Obj
  context : Option Ref
  controlOp : Option Int
  argument : Option Obj

/-- `multipython_response_make_new`; the two flags say whether each `malloc` succeeds, and the
last argument is what the new node is registered for. The result is `none` where
the call raises `ENOMEM`. -/
def multipythonResponseMakeNew (mpConstNone : Obj) (responses : Responses Obj)
    (args : ResponseArgs Obj) (mallocResponse mallocNode : Bool) (registeredFor : Option Nat) :
    Option (Responses Obj) :=
  if mallocResponse && mallocNode then
    let response : MultipythonResponseObj Obj :=
      { condition := args.condition.getD mpConstNone
        context := args.context.getD 0
        controlOp := args.controlOp.getD 0
        argument := args.argument.getD mpConstNone }
    some { responses with head := responses.head ++ [⟨response, registeredFor⟩] }
  else
    none

/-! ## What a notification delivers -/

/-- The nodes that `notify` compares: all of them, or those before the first comparison that
raises. -/
def compared (condition : Obj) (nodes : List (MultipythonResponseNode Obj)) :
    List (MultipythonResponseNode Obj) :=
  nodes.takeWhile fun node => (equal node.response.condition condition).isOk

/-- The test at the start of `multipython_notify` lets the condition pass. -/
def passes (mpConstNone condition : Obj) : Bool :=
  match equal condition mpConstNone with
  | .ok isNone => !isNone
  | .error _ => false

/-- The condition of a response matches. -/
def answers (condition : Obj) (node : MultipythonResponseNode Obj) : Bool :=
  match equal node.response.condition condition with
  | .ok matched => matched
  | .error _ => false

/-- The entries for one context: those of its matching responses, in the order of
registration. -/
def deliveries (condition : Obj) (nodes : List (MultipythonResponseNode Obj)) (ref : Ref) :
    List (MpResponse Obj) :=
  ((compared equal condition nodes).filter fun node =>
    answers equal condition node && node.response.context == ref).map fun node => node.response.entry

theorem deliveries_cons {condition : Obj} {node : MultipythonResponseNode Obj} {matched : Bool}
    (outcome : equal node.response.condition condition = .ok matched)
    (rest : List (MultipythonResponseNode Obj)) (ref : Ref) :
    deliveries equal condition (node :: rest) ref =
      (if matched && node.response.context == ref then [node.response.entry] else []) ++
        deliveries equal condition rest ref := by
  have here : answers equal condition node = matched := by simp [answers, outcome]
  have goesOn : compared equal condition (node :: rest) = node :: compared equal condition rest := by
    simp [compared, outcome, Except.isOk, Except.toBool]
  rw [deliveries, goesOn, filter_cons, here]
  split <;> rfl

theorem notifyLoop_followed (condition : Obj) (responses : Responses Obj)
    (nodes : List (MultipythonResponseNode Obj)) :
    (notifyLoop equal condition responses nodes).followed =
        (compared equal condition nodes).filter (answers equal condition) ∧
      (notifyLoop equal condition responses nodes).responses.head = responses.head ∧
      ((notifyLoop equal condition responses nodes).raised = none ↔
        compared equal condition nodes = nodes) := by
  induction nodes generalizing responses with
  | nil => simp [notifyLoop, compared]
  | cons node rest ih =>
    cases outcome : equal node.response.condition condition with
    | error exception =>
      simp [notifyLoop, compared, outcome, Except.isOk, Except.toBool]
    | ok matched =>
      cases matched with
      | false =>
        have skipped := ih responses
        simp [notifyLoop, compared, answers, outcome, Except.isOk, Except.toBool] at skipped ⊢
        exact skipped
      | true =>
        have sent := ih (responses.send node.response)
        simp [notifyLoop, compared, answers, outcome, Except.isOk, Except.toBool] at sent ⊢
        exact ⟨sent.1, sent.2.1, sent.2.2⟩

/-- `notify` follows the matching responses, unless the condition is `None`, and leaves the list
as it is. -/
theorem multipythonNotify_followed (mpConstNone condition : Obj) (responses : Responses Obj) :
    (multipythonNotify equal mpConstNone responses condition).followed =
        (if passes equal mpConstNone condition then
          (compared equal condition responses.head).filter (answers equal condition) else []) ∧
      (multipythonNotify equal mpConstNone responses condition).responses.head = responses.head := by
  cases outcome : equal condition mpConstNone with
  | error exception => simp [multipythonNotify, passes, outcome]
  | ok isNone =>
    cases isNone with
    | true => simp [multipythonNotify, passes, outcome]
    | false =>
      obtain ⟨followed, head, _⟩ := notifyLoop_followed equal condition responses responses.head
      simp [multipythonNotify, passes, outcome, followed, head]

theorem take_take_append {α : Type} (limit : Nat) (early late : List α) :
    (early.take limit ++ late).take limit = (early ++ late).take limit := by
  have left : limit - min limit early.length = limit - early.length := by omega
  rw [take_append, take_append, take_take, length_take, Nat.min_self, left]

/-- What the loop leaves in the queue of one context. -/
theorem notifyLoop_queue (condition : Obj) {responses : Responses Obj}
    (nodes : List (MultipythonResponseNode Obj)) {ref : Ref} {entries : List (MpResponse Obj)}
    (holds : Holds (responses.queues ref) entries) :
    Holds ((notifyLoop equal condition responses nodes).responses.queues ref)
        ((entries ++ deliveries equal condition nodes ref).take fifoCapacity) ∧
      (deliveries equal condition nodes ref = [] →
        (notifyLoop equal condition responses nodes).responses.queues ref = responses.queues ref) := by
  induction nodes generalizing responses entries with
  | nil =>
    have all := take_of_length_le holds.length_le
    simpa [notifyLoop, deliveries, compared, all] using holds
  | cons node rest ih =>
    cases outcome : equal node.response.condition condition with
    | error exception =>
      have all := take_of_length_le holds.length_le
      simpa [notifyLoop, deliveries, compared, outcome, Except.isOk, Except.toBool, all] using holds
    | ok matched =>
      rw [deliveries_cons equal outcome]
      cases matched with
      | false => simpa [notifyLoop, outcome] using ih holds
      | true =>
        by_cases here : node.response.context = ref
        · subst here
          have written := (mpResponseQueueWrite_eq holds node.response.entry).2.1
          rw [fifoWrite_eq_take holds.length_le] at written
          have sent : Holds ((responses.send node.response).queues node.response.context)
              ((entries ++ [node.response.entry]).take fifoCapacity) := by
            simpa [Responses.send] using written
          have later := (ih sent).1
          rw [take_take_append, append_assoc] at later
          simpa [notifyLoop, outcome] using later
        · have untouched : (responses.send node.response).queues ref = responses.queues ref :=
            Function.update_of_ne (Ne.symm here) _ _
          have later := ih (untouched ▸ holds)
          rw [untouched] at later
          simpa [notifyLoop, outcome, here] using later

variable [DecidableEq Obj] (mpConstNone : Obj)

end MultiPython.Esp32
