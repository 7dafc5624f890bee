import MultiPython.Esp32.Runtime

/-!
# The active context of a core

`mp_context_remove` frees a context without a look at `mp_active_contexts`. The pointers in
`mp_active_contexts` are good exactly as long as no context is removed while it is the
active one of some core.
-/

namespace MultiPython.Esp32

open Context Logic List

variable {σ κ Obj ε : Type}

/-- The active context of every core is `NULL` or in the list. -/
def Runtime.ActiveListed (s : Runtime σ κ Obj) : Prop :=
  ∀ core, s.memory.activeContexts core = 0 ∨ s.memory.activeContexts core ∈ s.memory.contextList

/-- The event removes no context that is active on some core. -/
def Runtime.SparesActive (s : Runtime σ κ Obj) (event : RuntimeEvent κ Obj) : Prop :=
  ∀ context ∈ s.removes event, ∀ core, s.memory.activeContexts core ≠ context

instance [Fintype κ] (s : Runtime σ κ Obj) (event : RuntimeEvent κ Obj) :
    Decidable (s.SparesActive event) :=
  inferInstanceAs (Decidable (∀ context ∈ s.removes event, ∀ core,
    s.memory.activeContexts core ≠ context))

theorem Runtime.initial_linked [Zero Obj] {defaultContext : Ref} (defaultState : Ref) (state : σ)
    (mainTask : Nat) (notNull : defaultContext ≠ 0) (bounded : defaultContext < addressSpace) :
    RuntimeLinked
      (Runtime.initial defaultContext defaultState state mainTask : Runtime σ κ Obj)
      [defaultContext] := by
  refine ⟨⟨_, MpContexts.initial_linked defaultState state notNull bounded⟩, fun pair waits => ?_,
    fun pair waits => absurd waits (not_mem_nil)⟩
  rw [mem_singleton.mp waits]
  exact ⟨mem_singleton.mpr rfl,
    by simp [Runtime.initial, MpContexts.initial, MpContexts.nodeOf, MpContextNode.zeroed]⟩

section Steps

variable {s after : Runtime σ κ Obj} {refs later : List Ref} {event : RuntimeEvent κ Obj}

theorem RuntimeLinked.activeListed_iff (holds : RuntimeLinked s refs) :
    s.ActiveListed ↔ ∀ core, s.memory.activeContexts core = 0 ∨ s.memory.activeContexts core ∈ refs := by
  obtain ⟨ledger, linked⟩ := holds.linked
  rw [Runtime.ActiveListed, linked.contextList_eq]

theorem activeListed_of_switch (holds : RuntimeLinked s refs) (holdsAfter : RuntimeLinked after later)
    (active : s.ActiveListed) (grows : refs ⊆ later)
    (switches : ∀ core, after.memory.activeContexts core = s.memory.activeContexts core ∨
      after.memory.activeContexts core ∈ later)
    (nothing : s.removes event = none) : after.ActiveListed ↔ s.SparesActive event := by
  refine iff_of_true (holdsAfter.activeListed_iff.mpr fun core => ?_) fun context removes =>
    absurd (removes.symm.trans nothing) (Option.some_ne_none context)
  rcases switches core with same | listed
  · rw [same]
    exact (holds.activeListed_iff.mp active core).imp_right fun member => grows member
  · exact Or.inr listed

/-- An event keeps the active contexts in the list exactly if it removes none of them. -/
theorem Outcome.activeListed_iff [DecidableEq κ] [Zero Obj] (holds : RuntimeLinked s refs)
    (active : s.ActiveListed) (outcome : Outcome s refs event after later) :
    after.ActiveListed ↔ s.SparesActive event := by
  have holdsAfter := outcome.linked holds
  have same := List.Subset.refl refs
  have updated : ∀ {core ref}, ref ∈ refs → ∀ other,
      Function.update s.memory.activeContexts core ref other = s.memory.activeContexts other ∨
        Function.update s.memory.activeContexts core ref other ∈ refs := by
    intro core ref member other
    by_cases here : other = core
    · rw [here, Function.update_self]
      exact Or.inr member
    · rw [Function.update_of_ne here]
      exact Or.inl rfl
  cases outcome with
  | notStarted kept =>
    exact activeListed_of_switch holds holdsAfter active same
      (fun core => Or.inl (congrFun kept.globals.activeContexts core))
      (Runtime.removes_of_untargeted rfl)
  | @started args mallocs task memory created appended =>
    refine activeListed_of_switch holds holdsAfter active (subset_append_left _ _)
      (fun core => Or.inl ?_) (Runtime.removes_of_untargeted rfl)
    cases created with
    | none => exact congrFun appended.globals.activeContexts core
    | some task => exact congrFun appended.globals.activeContexts core
  | entered member =>
    exact activeListed_of_switch holds holdsAfter active same (updated member)
      (Runtime.removes_of_untargeted rfl)
  | unclaimed =>
    exact activeListed_of_switch holds holdsAfter active same (fun _ => Or.inl rfl)
      (Runtime.removes_of_untargeted rfl)
  | switched member =>
    exact activeListed_of_switch holds holdsAfter active same (updated member)
      (Runtime.removes_of_untargeted rfl)
  | @ended event context memory removes member named removed =>
    obtain ⟨ledger, linked⟩ := holds.linked
    rw [holdsAfter.activeListed_iff]
    have unchanged : (s.ended memory context).memory.activeContexts = s.memory.activeContexts :=
      removed.globals.activeContexts
    rw [unchanged]
    constructor
    · intro stillListed other otherRemoves core isActive
      obtain rfl : context = other := Option.some.inj (removes.symm.trans otherRemoves)
      have notNull := linked.chain.ne_zero context member
      rcases stillListed core with isNull | stays
      · exact notNull (isActive ▸ isNull)
      · rw [isActive] at stays
        exact linked.distinct.not_mem_erase stays
    · intro spares core
      refine (holds.activeListed_iff.mp active core).imp_right fun listed => ?_
      exact (mem_erase_of_ne (spares context removes core)).mpr listed
  | notEnded nothing =>
    exact activeListed_of_switch holds holdsAfter active same (fun _ => Or.inl rfl) nothing
  | noThreads kept =>
    exact activeListed_of_switch holds holdsAfter active same
      (fun core => Or.inl (congrFun kept.globals.activeContexts core))
      (Runtime.removes_of_untargeted rfl)
  | threadInit member main kept =>
    exact activeListed_of_switch holds holdsAfter active same
      (fun core => Or.inl (congrFun kept.globals.activeContexts core))
      (Runtime.removes_of_untargeted rfl)
  | threadCreated | threadAdded | cleanedUp =>
    exact activeListed_of_switch holds holdsAfter active same (fun _ => Or.inl rfl)
      (Runtime.removes_of_untargeted rfl)
  | responded untargeted =>
    exact activeListed_of_switch holds holdsAfter active same (fun _ => Or.inl rfl)
      (Runtime.removes_of_untargeted untargeted)

end Steps

/-- In a run the active contexts are always in the list if and only if no event removes a
context while it is active on some core. -/
theorem activeContexts_listed_iff [Zero σ] [DecidableEq κ] [Zero Obj]
    {equal : Obj → Obj → Except ε Bool} {mpConstNone : Obj} {defaultContext defaultState : Ref}
    {state : σ} {mainTask : Nat} {run : List (RuntimeEvent κ Obj × Runtime σ κ Obj)}
    (notNull : defaultContext ≠ 0) (bounded : defaultContext < addressSpace)
    (runs : Run (Runtime.Step equal mpConstNone)
      (Runtime.initial defaultContext defaultState state mainTask) run) :
    (∀ s ∈ visited (Runtime.initial defaultContext defaultState state mainTask) run,
        s.ActiveListed) ↔
      ∀ taken ∈ fired (Runtime.initial defaultContext defaultState state mainTask) run,
        taken.1.SparesActive taken.2 := by
  refine runs.forall_iff (fun s => ∃ refs, RuntimeLinked s refs) Runtime.SparesActive
    ⟨_, Runtime.initial_linked defaultState state mainTask notNull bounded⟩
    (fun _ => Or.inl rfl) ?_ ?_
  · rintro s event after ⟨refs, holds⟩ stepped
    obtain ⟨later, outcome⟩ := stepped.outcome holds
    exact ⟨later, outcome.linked holds⟩
  · rintro s event after ⟨refs, holds⟩ active stepped
    obtain ⟨later, outcome⟩ := stepped.outcome holds
    exact outcome.activeListed_iff holds active

/-- A second context runs on the first core, and is stopped when the main task runs there
again. -/
theorem activeContexts_listed_after_stop :
    let start : Runtime Nat Bool Nat := Runtime.initial 4 8 0 100
    let run := trace (Runtime.step · (fun _ _ => Except.ok (ε := Unit) false) 0) start
      [.mpTaskSwitchedIn false 100, .taskEntry false 4,
        .multipythonStart ⟨some 3, none, none⟩ ⟨16, 20, 24, 28⟩ (some 200),
        .mpTaskSwitchedIn false 200, .taskEntry false 16, .mpTaskSwitchedIn false 100,
        .multipythonEndTask 200]
    run.length = 7 ∧ ∀ s ∈ visited start run, s.ActiveListed := by
  intro start run
  have runs : Run (Runtime.Step (fun _ _ => Except.ok (ε := Unit) false) 0) start run :=
    Run.of_trace (fun s event => Runtime.Promised s event)
      (fun promised happens => ⟨promised, happens⟩) _ (by decide)
  exact ⟨by decide, (activeContexts_listed_iff (by decide) (by decide) runs).mpr
    (by decide)⟩

/-- A second context runs to its end on the second core, which is left with a pointer to it. -/
theorem taskFinished_leaves_active_context :
    let start : Runtime Nat Bool Nat := Runtime.initial 4 8 0 100
    let run := trace (Runtime.step · (fun _ _ => Except.ok (ε := Unit) false) 0) start
      [.mpTaskSwitchedIn false 100, .taskEntry false 4,
        .multipythonStart ⟨some 3, none, none⟩ ⟨16, 20, 24, 28⟩ (some 200),
        .mpTaskSwitchedIn true 200, .taskEntry true 16, .taskFinished true]
    Run (Runtime.Step (fun _ _ => Except.ok (ε := Unit) false) 0) start run ∧
      ∃ s ∈ visited start run, s.memory.activeContexts true = 16 ∧ s.memory.contexts 16 = none ∧
        ¬s.ActiveListed := by
  intro start run
  refine ⟨Run.of_trace (fun s event => Runtime.Promised s event)
      (fun promised happens => ⟨promised, happens⟩) _
    (by decide), (run.getLast (by decide)).2, ?_, by decide,
    by decide, fun active => ?_⟩
  · exact mem_cons_of_mem _ (List.mem_map_of_mem (getLast_mem _))
  · exact absurd (active true) (by decide)

end MultiPython.Esp32
