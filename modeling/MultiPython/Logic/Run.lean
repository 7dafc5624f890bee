import Mathlib

/-!
# Finite runs

A `Run` keeps the event and the state after every step, so that a property of
the states it visits and a condition on the steps it takes are both statements
about the same run. `Run.invariant` is the usual induction. `Run.forall_iff` is
for properties that hold exactly as long as every step meets a condition on the
state it starts in.
-/

namespace MultiPython.Logic

open List

variable {σ ε : Type*}

/-- A finite run of a step relation, with the state after each event. -/
inductive Run (step : σ → ε → σ → Prop) : σ → List (ε × σ) → Prop where
  | nil {state} : Run step state []
  | cons {state event next rest} (first : step state event next) (later : Run step next rest) :
      Run step state ((event, next) :: rest)

/-- The states a run visits, the first one included. -/
def visited (start : σ) (run : List (ε × σ)) : List σ := start :: run.map Prod.snd

/-- The steps a run takes, each with the state it starts in. -/
def fired (start : σ) : List (ε × σ) → List (σ × ε)
  | [] => []
  | (event, next) :: rest => (start, event) :: fired next rest

/-- Steps start in visited states. -/
theorem mem_visited_of_fired {start : σ} {run : List (ε × σ)} {taken : σ × ε}
    (member : taken ∈ fired start run) : taken.1 ∈ visited start run := by
  induction run generalizing start with
  | nil => cases member
  | cons first rest ih =>
    rcases mem_cons.mp member with rfl | later
    · exact mem_cons_self
    · exact mem_cons_of_mem _ (ih later)

namespace Run

variable {step : σ → ε → σ → Prop} {start : σ} {run : List (ε × σ)}

/-- What holds at the start and survives every step holds all along a run. -/
theorem invariant (holds : σ → Prop) (runs : Run step start run) (initial : holds start)
    (preserved : ∀ {state event next}, holds state → step state event next → holds next) :
    ∀ state ∈ visited start run, holds state := by
  induction runs with
  | nil => simpa [visited] using initial
  | cons first _ ih =>
    intro state member
    rcases mem_cons.mp member with rfl | later
    · exact initial
    · exact ih (preserved initial first) state (by simpa [visited] using later)

/-- An invariant that each step preserves under a condition holds along every run
whose steps meet that condition. -/
theorem invariant_of_fired (holds : σ → Prop) (condition : σ → ε → Prop)
    (runs : Run step start run) (initial : holds start)
    (preserved : ∀ {state event next}, holds state → condition state event →
      step state event next → holds next)
    (meets : ∀ taken ∈ fired start run, condition taken.1 taken.2) :
    ∀ state ∈ visited start run, holds state := by
  induction runs with
  | nil => simpa [visited] using initial
  | @cons state event next rest first _ ih =>
    have here := preserved initial (meets (state, event) mem_cons_self) first
    intro other member
    rcases mem_cons.mp member with rfl | later
    · exact initial
    · exact ih here
        (fun taken belongs => meets taken (mem_cons_of_mem _ belongs)) other
        (by simpa [visited] using later)

/-- If every step keeps `holds` exactly when it meets `condition`, a run visits
only good states exactly when all its steps meet the condition. -/
theorem forall_iff (always : σ → Prop) {holds : σ → Prop} (condition : σ → ε → Prop)
    (runs : Run step start run) (invariant : always start) (initial : holds start)
    (preserved : ∀ {state event next}, always state → step state event next → always next)
    (exact : ∀ {state event next}, always state → holds state → step state event next →
      (holds next ↔ condition state event)) :
    (∀ state ∈ visited start run, holds state) ↔
      ∀ taken ∈ fired start run, condition taken.1 taken.2 := by
  induction runs with
  | nil => simpa [visited, fired] using initial
  | @cons state event next rest first _ ih =>
    have here := exact invariant initial first
    constructor
    · intro good
      have nextHolds : holds next := good next (by simp [visited])
      have later := (ih (preserved invariant first) nextHolds).mp
        fun other member => good other (mem_cons_of_mem _ (by simpa [visited] using member))
      intro taken member
      rcases mem_cons.mp member with rfl | member
      · exact here.mp nextHolds
      · exact later taken member
    · intro meets
      have nextHolds : holds next := here.mpr (meets (state, event) mem_cons_self)
      have later := (ih (preserved invariant first) nextHolds).mpr
        fun taken member => meets taken (mem_cons_of_mem _ member)
      intro other member
      rcases mem_cons.mp member with rfl | member
      · exact initial
      · exact later other (by simpa [visited] using member)

end Run

/-- The run that a list of events makes, up to the first one that cannot happen. -/
def trace (next : σ → ε → Option σ) : σ → List ε → List (ε × σ)
  | _, [] => []
  | state, event :: rest =>
    match next state event with
    | none => []
    | some after => (event, after) :: trace next after rest

/-- The trace is a run if every event is allowed where it happens. -/
theorem Run.of_trace {step : σ → ε → σ → Prop} {next : σ → ε → Option σ}
    (allowed : σ → ε → Prop)
    (made : ∀ {state event after}, allowed state event → next state event = some after →
      step state event after)
    (events : List ε) {start : σ}
    (allAllowed : ∀ taken ∈ fired start (trace next start events), allowed taken.1 taken.2) :
    Run step start (trace next start events) := by
  induction events generalizing start with
  | nil => exact .nil
  | cons event rest ih =>
    cases happens : next start event with
    | none =>
      rw [trace, happens]
      exact .nil
    | some after =>
      rw [trace, happens] at allAllowed ⊢
      refine .cons (made (allAllowed (start, event) mem_cons_self) happens) ?_
      exact ih fun taken member =>
        allAllowed taken (mem_cons_of_mem _ member)

/-- A fold that may fail is simulated step by step: `abstracted` maps the states
and `expand` the items, under an invariant of the concrete states. -/
theorem foldlM_simulates {τ α β : Type*} {concrete : σ → α → Option σ}
    {abstract : τ → β → Option τ} (abstracted : σ → τ) (expand : α → List β) (good : σ → Prop)
    (items : List α)
    (step : ∀ item ∈ items, ∀ {state}, good state →
      (concrete state item).map abstracted = (expand item).foldlM abstract (abstracted state) ∧
        ∀ next, concrete state item = some next → good next)
    {state : σ} (start : good state) :
    (items.foldlM concrete state).map abstracted =
        (items.flatMap expand).foldlM abstract (abstracted state) ∧
      ∀ next, items.foldlM concrete state = some next → good next := by
  induction items generalizing state with
  | nil => exact ⟨rfl, fun next same => by cases same; exact start⟩
  | cons item rest ih =>
    obtain ⟨stepEq, stepGood⟩ := step item mem_cons_self start
    simp only [foldlM_cons, flatMap_cons, foldlM_append, ← stepEq]
    cases taken : concrete state item with
    | none => exact ⟨rfl, by simp⟩
    | some next =>
      exact ih
        (fun other member => step other (mem_cons_of_mem _ member)) (stepGood next taken)

end MultiPython.Logic
