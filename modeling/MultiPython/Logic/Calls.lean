import Mathlib

/-!
# Sequences of calls

An object that is called from outside: a call gives a response and the next state, or does not come
back. `responses` is what a caller sees of a list of calls, `attempted` are the calls that are made,
each with the state it is made in. `responses_simulates` compares two such objects call by call.
-/

namespace MultiPython.Logic

open List

variable {σ τ κ ρ : Type*}

/-- The responses to a list of calls, with the state after each, up to one that does not come back. -/
def responses (perform : σ → κ → Option (ρ × σ)) : σ → List κ → List (Option (ρ × σ))
  | _, [] => []
  | state, call :: calls =>
    match perform state call with
    | none => [none]
    | some (response, next) => some (response, next) :: responses perform next calls

/-- The calls that are made, each with the state it is made in. -/
def attempted (perform : σ → κ → Option (ρ × σ)) : σ → List κ → List (σ × κ)
  | _, [] => []
  | state, call :: calls =>
    (state, call) ::
      match perform state call with
      | none => []
      | some (_, next) => attempted perform next calls

variable {perform : σ → κ → Option (ρ × σ)} {start : σ}

theorem attempted_mem {calls : List κ} {made : σ × κ}
    (member : made ∈ attempted perform start calls) : made.2 ∈ calls := by
  induction calls generalizing start with
  | nil => cases member
  | cons call calls ih =>
    rw [attempted, mem_cons] at member
    rcases member with rfl | later
    · exact mem_cons_self
    · refine mem_cons_of_mem _ ?_
      cases comes : perform start call with
      | none =>
        rw [comes] at later
        cases later
      | some back =>
        rw [comes] at later
        exact ih later

/-- Two objects give the same responses, and go through states that correspond, if each call that
meets a condition does so, and keeps an invariant. -/
theorem responses_simulates {concrete : σ → κ → Option (ρ × σ)} {abstract : τ → κ → Option (ρ × τ)}
    (abstracted : σ → τ) (good : σ → Prop) (condition : σ → κ → Prop)
    (same : ∀ {state call}, good state → condition state call →
      (concrete state call).map (Prod.map id abstracted) = abstract (abstracted state) call)
    (kept : ∀ {state call response next}, good state → condition state call →
      concrete state call = some (response, next) → good next) (initial : good start)
    (calls : List κ) (meets : ∀ made ∈ attempted concrete start calls, condition made.1 made.2) :
    (responses concrete start calls).map (Option.map (Prod.map id abstracted)) =
      responses abstract (abstracted start) calls := by
  induction calls generalizing start with
  | nil => rfl
  | cons call calls ih =>
    have here := meets (start, call) mem_cons_self
    have equal := same initial here
    cases comes : concrete start call with
    | none =>
      rw [comes] at equal
      rw [responses, comes, responses, ← equal]
      rfl
    | some back =>
      obtain ⟨response, next⟩ := back
      rw [comes] at equal
      rw [attempted, comes] at meets
      rw [responses, comes, responses, ← equal]
      have later := ih (kept initial here comes)
        fun made member => meets made (mem_cons_of_mem _ member)
      simpa using later

/-- What holds at the start and survives every call that meets a condition holds of every state that
a call is made in or leads to. -/
theorem responses_invariant (good : σ → Prop) (condition : σ → κ → Prop)
    (kept : ∀ {state call response next}, good state → condition state call →
      perform state call = some (response, next) → good next) (initial : good start)
    (calls : List κ) (meets : ∀ made ∈ attempted perform start calls, condition made.1 made.2) :
    ∀ response next, some (response, next) ∈ responses perform start calls → good next := by
  induction calls generalizing start with
  | nil => simp [responses]
  | cons call calls ih =>
    have here := meets (start, call) mem_cons_self
    intro response next member
    cases comes : perform start call with
    | none =>
      rw [responses, comes] at member
      simp at member
    | some back =>
      obtain ⟨first, after⟩ := back
      rw [attempted, comes] at meets
      rw [responses, comes, mem_cons] at member
      rcases member with same | later
      · cases same
        exact kept initial here comes
      · exact ih (kept initial here comes)
          (fun made belongs => meets made (mem_cons_of_mem _ belongs)) response next later

/-- Every call of a list comes back and meets its postcondition. -/
inductive AllAnswered (perform : σ → κ → Option (ρ × σ)) (meets : σ → κ → ρ → σ → Prop) :
    σ → List κ → Prop where
  | nil {state} : AllAnswered perform meets state []
  | cons {state call calls response next} (comes : perform state call = some (response, next))
      (here : meets state call response next) (later : AllAnswered perform meets next calls) :
      AllAnswered perform meets state (call :: calls)

variable {meets : σ → κ → ρ → σ → Prop}

/-- If all calls are answered, each of them comes back. -/
theorem AllAnswered.comes_back {calls : List κ} (answered : AllAnswered perform meets start calls) :
    none ∉ responses perform start calls := by
  induction answered with
  | nil => exact not_mem_nil
  | cons comes _ _ ih =>
    rw [responses, comes, mem_cons]
    rintro (same | later)
    · cases same
    · exact ih later

/-- All calls are answered if each call that meets a condition is, and keeps an invariant. -/
theorem AllAnswered.of_condition (good : σ → Prop) (condition : σ → κ → Prop)
    (answers : ∀ {state call}, good state → condition state call → ∃ response next,
      perform state call = some (response, next) ∧ meets state call response next ∧ good next)
    (initial : good start) (calls : List κ)
    (fit : ∀ made ∈ attempted perform start calls, condition made.1 made.2) :
    AllAnswered perform meets start calls := by
  induction calls generalizing start with
  | nil => exact .nil
  | cons call calls ih =>
    obtain ⟨response, next, comes, here, nextGood⟩ :=
      answers initial (fit (start, call) mem_cons_self)
    rw [attempted, comes] at fit
    exact .cons comes here
      (ih nextGood fun made member => fit made (mem_cons_of_mem _ member))

end MultiPython.Logic
