import Mathlib.Data.List.Basic
import Mathlib.Tactic

/-!
# Loops with a measure

`whileSome body left` repeats a loop body until it gives nothing. The measure of the state bounds the
number of rounds: where every round makes it smaller, the body has nothing more to do at the end.
-/

namespace MultiPython.Logic

variable {σ : Type*}

/-- Repeat a loop body as long as it gives something, for some rounds at most. -/
def rounds (body : σ → Option σ) : Nat → σ → σ
  | 0, state => state
  | fuel + 1, state =>
    match body state with
    | none => state
    | some next => rounds body fuel next

/-- Repeat a loop body as long as it gives something. -/
def whileSome (body : σ → Option σ) (left : σ → Nat) (state : σ) : σ :=
  rounds body (left state) state

variable {body : σ → Option σ} {left : σ → Nat} {state next : σ}

theorem rounds_of_none (done : body state = none) (fuel : Nat) : rounds body fuel state = state := by
  cases fuel with
  | zero => rfl
  | succ fuel => rw [rounds, done]

theorem whileSome_of_none (done : body state = none) : whileSome body left state = state :=
  rounds_of_none done _

section

variable (smaller : ∀ {state next}, body state = some next → left next < left state)

include smaller

/-- At the end of a loop the body gives nothing, if every round makes the measure smaller. -/
theorem rounds_done {fuel : Nat} (enough : left state ≤ fuel) :
    body (rounds body fuel state) = none := by
  induction fuel generalizing state with
  | zero =>
    cases gives : body state with
    | none => exact gives
    | some next =>
      have less := smaller gives
      omega
  | succ fuel ih =>
    cases gives : body state with
    | none => rw [rounds_of_none gives, gives]
    | some next =>
      rw [rounds, gives]
      have less := smaller gives
      exact ih (by omega)

theorem whileSome_done :
    body (whileSome body left state) = none :=
  rounds_done smaller le_rfl

/-- More rounds than the measure change nothing. -/
theorem rounds_of_le {fuel : Nat} (enough : left state ≤ fuel) :
    rounds body fuel state = whileSome body left state := by
  rw [whileSome]
  generalize bound : left state = least at enough ⊢
  have atMost : left state ≤ least := bound.le
  clear bound
  induction least generalizing state fuel with
  | zero =>
    have done : body state = none := by
      cases gives : body state with
      | none => rfl
      | some next =>
        have less := smaller gives
        omega
    rw [rounds_of_none done, rounds_of_none done]
  | succ least ih =>
    obtain ⟨fuel, rfl⟩ : ∃ more, fuel = more + 1 := ⟨fuel - 1, by omega⟩
    cases gives : body state with
    | none => rw [rounds_of_none gives, rounds_of_none gives]
    | some next =>
      have less := smaller gives
      simp only [rounds, gives]
      exact ih (by omega) (by omega)

/-- One round of a loop. -/
theorem whileSome_of_some (gives : body state = some next) :
    whileSome body left state = whileSome body left next := by
  have less := smaller gives
  obtain ⟨fuel, bound⟩ : ∃ fuel, left state = fuel + 1 := ⟨left state - 1, by omega⟩
  rw [whileSome, bound, rounds, gives]
  exact rounds_of_le smaller (by omega)

end

section Map

variable {τ : Type*} {other : τ → Option τ} {measure : τ → Nat} {f : σ → τ}

theorem rounds_map (commutes : ∀ state, other (f state) = (body state).map f) (fuel : Nat)
    (state : σ) : rounds other fuel (f state) = f (rounds body fuel state) := by
  induction fuel generalizing state with
  | zero => rfl
  | succ fuel ih =>
    cases gives : body state with
    | none => rw [rounds_of_none gives, rounds_of_none (by rw [commutes, gives]; rfl)]
    | some next =>
      have both : other (f state) = some (f next) := by rw [commutes, gives]; rfl
      rw [rounds, rounds, gives, both]
      exact ih next

/-- A map that commutes with the bodies of two loops commutes with the loops. -/
theorem whileSome_map (commutes : ∀ state, other (f state) = (body state).map f)
    (smaller : ∀ {state next}, body state = some next → left next < left state)
    (fewer : ∀ {state next}, other state = some next → measure next < measure state) (state : σ) :
    whileSome other measure (f state) = f (whileSome body left state) := by
  rw [← rounds_of_le smaller (Nat.le_max_left (left state) (measure (f state))),
    ← rounds_of_le fewer (Nat.le_max_right (left state) (measure (f state))), rounds_map commutes]

end Map

/-- What holds before a loop and survives every round holds after the loop. -/
theorem rounds_invariant (holds : σ → Prop) (initial : holds state)
    (kept : ∀ {state next}, holds state → body state = some next → holds next) (fuel : Nat) :
    holds (rounds body fuel state) := by
  induction fuel generalizing state with
  | zero => exact initial
  | succ fuel ih =>
    cases gives : body state with
    | none =>
      rw [rounds_of_none gives]
      exact initial
    | some next =>
      rw [rounds, gives]
      exact ih (kept initial gives)

theorem whileSome_invariant (holds : σ → Prop) (initial : holds state)
    (kept : ∀ {state next}, holds state → body state = some next → holds next) :
    holds (whileSome body left state) :=
  rounds_invariant holds initial kept _

end MultiPython.Logic
