import Mathlib.Logic.Basic

/-!
# Interactions

A computation on a world that may hand over to other code and go on with its answer. The other
code may do anything to the world, so two computations have the same effect for every such code
exactly if their interactions are equal. `Machine` runs such computations together with the
other code, and `lockstep` is the rule for two machines that differ only in how they perform
operations.
-/

namespace MultiPython.Logic

universe u

/-- What a computation does from a world on. -/
inductive Interaction (World Call Answer Exn α : Type u) where
  | done (result : α) (world : World)
  | failed (exn : Exn) (world : World)
  | call (request : Call) (world : World)
      (next : Answer → World → Interaction World Call Answer Exn α)
  | stuck

namespace Interaction

variable {World Call Answer Exn α β : Type u}

/-- Go on with the result. -/
def bind (first : Interaction World Call Answer Exn α)
    (rest : α → World → Interaction World Call Answer Exn β) :
    Interaction World Call Answer Exn β :=
  match first with
  | done result world => rest result world
  | failed exn world => failed exn world
  | call request world next => call request world fun answer world => (next answer world).bind rest
  | stuck => stuck

end Interaction

/-- A computation, as a function of the world it starts in. -/
def Program (World Call Answer Exn α : Type u) : Type u :=
  World → Interaction World Call Answer Exn α

namespace Program

variable {World Call Answer Exn α β : Type u}

instance : Monad (Program World Call Answer Exn) where
  pure result world := .done result world
  bind first rest world := (first world).bind fun result between => rest result between

/-- Read the world. -/
def get : Program World Call Answer Exn World := fun world => .done world world

/-- Replace the world. -/
def set (world : World) : Program World Call Answer Exn PUnit := fun _ => .done ⟨⟩ world

/-- Raise an exception. -/
def raise (exn : Exn) : Program World Call Answer Exn α := fun world => .failed exn world

/-- Hand over to other code. -/
def perform (request : Call) : Program World Call Answer Exn Answer := fun world =>
  .call request world fun answer world => .done answer world

/-- Get stuck. -/
def halt : Program World Call Answer Exn α := fun _ => .stuck

@[simp] theorem pure_apply (result : α) (world : World) :
    (pure result : Program World Call Answer Exn α) world = .done result world :=
  rfl

@[simp] theorem bind_apply (first : Program World Call Answer Exn α)
    (rest : α → Program World Call Answer Exn β) (world : World) :
    (first >>= rest) world = (first world).bind fun result between => rest result between :=
  rfl

@[simp] theorem get_apply (world : World) :
    (get : Program World Call Answer Exn World) world = .done world world :=
  rfl

end Program

/-! ## Machines -/

/-- What the code around the operations does next. -/
inductive Turn (Control World Op Answer Exn : Type u) where
  | other (control : Control) (world : World)
  | operation (op : Op)
  | answer (value : Answer)
  | throw (exn : Exn)

/-- The code around the operations: what it does next, and how it goes on when an operation ends
or calls. -/
structure Driver (Control World Op Call Answer Exn α : Type u) where
  turn : Control → World → Turn Control World Op Answer Exn
  resume : Control → α → Control
  catch_ : Control → Exn → Control
  enter : Control → Call → Control

/-- A machine between two turns, with the operations that wait for an answer and the memory that
only its operations use. -/
structure Machine (Control World Call Answer Exn α Memory : Type u) where
  control : Control
  world : World
  pending : List (Answer → World → Interaction World Call Answer Exn α)
  memory : Memory

namespace Machine

variable {Control World Op Call Answer Exn α Memory Other : Type u}
variable (driver : Driver Control World Op Call Answer Exn α)

/-- Two machines look the same apart from their memories. -/
structure Alike (machine : Machine Control World Call Answer Exn α Memory)
    (other : Machine Control World Call Answer Exn α Other) : Prop where
  control : machine.control = other.control
  world : machine.world = other.world
  pending : machine.pending = other.pending

/-- Follow an operation to its end or to its next call. -/
def settle (machine : Machine Control World Call Answer Exn α Memory) :
    Interaction World Call Answer Exn α → Option (Machine Control World Call Answer Exn α Memory)
  | .done result world =>
    some { machine with control := driver.resume machine.control result, world := world }
  | .failed exn world =>
    some { machine with control := driver.catch_ machine.control exn, world := world }
  | .call request world next =>
    some { machine with
      control := driver.enter machine.control request
      world := world
      pending := next :: machine.pending }
  | .stuck => none

/-- One turn, with the way in which operations are performed. -/
def step (operate : Op → Memory → World → Memory × Interaction World Call Answer Exn α)
    (machine : Machine Control World Call Answer Exn α Memory) :
    Option (Machine Control World Call Answer Exn α Memory) :=
  match driver.turn machine.control machine.world with
  | .other control world => some { machine with control := control, world := world }
  | .operation op =>
    let operated := operate op machine.memory machine.world
    { machine with memory := operated.1 }.settle driver operated.2
  | .answer value =>
    match machine.pending with
    | [] => none
    | next :: pending => { machine with pending := pending }.settle driver (next value machine.world)
  | .throw exn =>
    match machine.pending with
    | [] => none
    | _ :: pending =>
      some { machine with
        control := driver.catch_ machine.control exn
        pending := pending }

/-- A number of turns. -/
def turns (operate : Op → Memory → World → Memory × Interaction World Call Answer Exn α) :
    Nat → Machine Control World Call Answer Exn α Memory →
      Option (Machine Control World Call Answer Exn α Memory)
  | 0, machine => some machine
  | count + 1, machine => (machine.step driver operate).bind (turns operate count)

/-- Machines that both stop, or go on alike. -/
def AlikeOption : Option (Machine Control World Call Answer Exn α Memory) →
    Option (Machine Control World Call Answer Exn α Other) → Prop
  | none, none => True
  | some machine, some other => Alike machine other
  | _, _ => False

variable {driver} {operate : Op → Memory → World → Memory × Interaction World Call Answer Exn α}
variable {operateOther : Op → Other → World → Other × Interaction World Call Answer Exn α}
variable {machine : Machine Control World Call Answer Exn α Memory}
variable {other : Machine Control World Call Answer Exn α Other}

theorem Alike.settle (alike : Alike machine other)
    (interaction : Interaction World Call Answer Exn α) :
    AlikeOption (machine.settle driver interaction) (other.settle driver interaction) := by
  obtain ⟨control, world, pending⟩ := alike
  cases interaction with
  | done result world => exact ⟨by rw [control], rfl, pending⟩
  | failed exn world => exact ⟨by rw [control], rfl, pending⟩
  | call request world next => exact ⟨by rw [control], rfl, by rw [pending]⟩
  | stuck => trivial

/-- A turn keeps machines alike if the operation that it performs has the same interaction. -/
theorem Alike.step (alike : Alike machine other)
    (agree : ∀ op, driver.turn other.control other.world = .operation op →
      ∀ memory memoryOther,
        (operate op memory other.world).2 = (operateOther op memoryOther other.world).2) :
    AlikeOption (machine.step driver operate) (other.step driver operateOther) := by
  obtain ⟨control, world, pending⟩ := alike
  rw [Machine.step, Machine.step, control, world, pending]
  cases turn : driver.turn other.control other.world with
  | other nextControl nextWorld => exact ⟨rfl, rfl, rfl⟩
  | operation op =>
    dsimp only
    rw [agree op turn machine.memory other.memory]
    apply Alike.settle
    exact ⟨rfl, rfl, rfl⟩
  | answer value =>
    cases waits : other.pending with
    | nil => trivial
    | cons next rest =>
      apply Alike.settle
      exact ⟨rfl, rfl, rfl⟩
  | throw exn =>
    cases waits : other.pending with
    | nil => trivial
    | cons next rest => exact ⟨rfl, rfl, rfl⟩

/-- Machines whose operations agree wherever one of them performs an operation stay alike. -/
theorem Alike.lockstep {count : Nat} (alike : Alike machine other)
    (agree : ∀ earlier < count, ∀ reached, other.turns driver operateOther earlier = some reached →
      ∀ op, driver.turn reached.control reached.world = .operation op →
        ∀ memory memoryOther,
          (operate op memory reached.world).2 = (operateOther op memoryOther reached.world).2) :
    AlikeOption (machine.turns driver operate count) (other.turns driver operateOther count) := by
  induction count generalizing machine other with
  | zero => exact alike
  | succ count ih =>
    have stepped := alike.step (agree 0 (Nat.succ_pos _) other rfl)
    rw [turns, turns]
    cases machineNext : machine.step driver operate with
    | none =>
      cases otherNext : other.step driver operateOther with
      | none => trivial
      | some reached =>
        rw [machineNext, otherNext] at stepped
        exact stepped.elim
    | some next =>
      cases otherNext : other.step driver operateOther with
      | none =>
        rw [machineNext, otherNext] at stepped
        exact stepped.elim
      | some reached =>
        rw [machineNext, otherNext] at stepped
        refine ih stepped fun earlier below later isLater => ?_
        refine agree (earlier + 1) (Nat.succ_lt_succ below) later ?_
        rw [turns, otherNext]
        exact isLater

end Machine

end MultiPython.Logic
