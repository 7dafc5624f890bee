import MultiPython.Esp32.ActiveContext

/-!
# The context that a response is for

A response keeps the address of its context, and nothing takes it out of the list when the
context is removed. The address may by then be that of a newer context, so a
context is known by its incarnation. `notify` writes to contexts that are in the list,
and to those that the responses were registered for, exactly as long as no response
that matches was registered for a context that has been removed since.
-/

namespace MultiPython.Esp32

open Context Logic List

variable {σ κ Obj ε : Type}

namespace Runtime

variable (s : Runtime σ κ Obj) (equal : Obj → Obj → Except ε Bool) (mpConstNone : Obj)

/-- Every response that `notify` follows leads to a listed context, the one that it was
registered for. -/
def DeliversToListed : RuntimeEvent κ Obj → Prop
  | .notify condition =>
    ∀ node ∈ (multipythonNotify equal mpConstNone s.responses condition).followed,
      node.response.context ∈ s.memory.contextList ∧
        node.registeredFor = some (s.incarnation node.response.context)
  | _ => True

/-- No response that matches the condition of `notify` was registered for a context that was
removed since, or for none. -/
def NoOrphanMatches : RuntimeEvent κ Obj → Prop
  | .notify condition =>
    passes equal mpConstNone condition = true →
      ∀ node ∈ compared equal condition s.responses.head, answers equal condition node = true →
        ∃ context ∈ node.registeredFor, context ∉ s.retired
  | _ => True

instance (event : RuntimeEvent κ Obj) : Decidable (s.DeliversToListed equal mpConstNone event) :=
  match event with
  | .notify condition =>
    inferInstanceAs (Decidable
      (∀ node ∈ (multipythonNotify equal mpConstNone s.responses condition).followed,
        node.response.context ∈ s.memory.contextList ∧
          node.registeredFor = some (s.incarnation node.response.context)))
  | .multipythonStart _ _ _ | .taskEntry _ _ | .mpTaskSwitchedIn _ _ | .multipythonEndTask _
  | .taskFinished _ | .mpThreadInit _ _ _ _ | .mpThreadCreate _ _ | .mpThreadAdded _ _
  | .vPortCleanUpTCB _ | .responseMakeNew _ _ _ | .checkResponses _ => .isTrue trivial

instance (event : RuntimeEvent κ Obj) : Decidable (s.NoOrphanMatches equal mpConstNone event) :=
  match event with
  | .notify condition =>
    inferInstanceAs (Decidable (passes equal mpConstNone condition = true →
      ∀ node ∈ compared equal condition s.responses.head, answers equal condition node = true →
        ∃ context ∈ node.registeredFor, context ∉ s.retired))
  | .multipythonStart _ _ _ | .taskEntry _ _ | .mpTaskSwitchedIn _ _ | .multipythonEndTask _
  | .taskFinished _ | .mpThreadInit _ _ _ _ | .mpThreadCreate _ _ | .mpThreadAdded _ _
  | .vPortCleanUpTCB _ | .responseMakeNew _ _ _ | .checkResponses _ => .isTrue trivial

end Runtime

/-- A listed context has an incarnation of its own, which is not retired. What a response is
registered for is retired, or it is the context at the address of the response. -/
structure Tracked (s : Runtime σ κ Obj) (refs : List Ref) : Prop where
  created : ∀ ref ∈ refs, s.incarnation ref < s.created
  retired : ∀ context ∈ s.retired, context < s.created
  distinct : ∀ ref ∈ refs, ∀ other ∈ refs, ref ≠ other → s.incarnation ref ≠ s.incarnation other
  living : ∀ ref ∈ refs, s.incarnation ref ∉ s.retired
  registered : ∀ node ∈ s.responses.head, ∀ context, node.registeredFor = some context →
    context ∈ s.retired ∨
      node.response.context ∈ refs ∧ s.incarnation node.response.context = context

section Steps

variable {s after : Runtime σ κ Obj} {refs later : List Ref} {event : RuntimeEvent κ Obj}

theorem Tracked.target_iff (tracked : Tracked s refs) {node : MultipythonResponseNode Obj}
    (member : node ∈ s.responses.head) :
    (node.response.context ∈ refs ∧
        node.registeredFor = some (s.incarnation node.response.context)) ↔
      ∃ context ∈ node.registeredFor, context ∉ s.retired := by
  constructor
  · rintro ⟨listed, registered⟩
    exact ⟨_, registered, tracked.living _ listed⟩
  · rintro ⟨context, registered, living⟩
    obtain ⟨listed, same⟩ := (tracked.registered node member context registered).resolve_left living
    exact ⟨listed, same ▸ registered⟩

/-- A context is created with a new incarnation. -/
theorem Tracked.begun [Zero Obj] (tracked : Tracked s refs) {ref : Ref} (fresh : ref ∉ refs)
    (memory : MpContexts σ κ) : Tracked (s.begun memory ref) (refs ++ [ref]) := by
  have new : (s.begun memory ref).incarnation ref = s.created := Function.update_self _ _ _
  have old : ∀ other ∈ refs, (s.begun memory ref).incarnation other = s.incarnation other :=
    fun other member => Function.update_of_ne (fun same : other = ref => fresh (same ▸ member)) _ _
  have count : (s.begun memory ref).created = s.created + 1 := rfl
  have unlessNew : ∀ {other}, other ∈ refs ++ [ref] → other ∈ refs ∨ other = ref := by
    intro other member
    simpa using member
  refine ⟨fun other member => ?_, fun context member => ?_, fun one oneMember other member different
    => ?_, fun other member => ?_, fun node member context registered => ?_⟩
  · rw [count]
    rcases unlessNew member with before | rfl
    · rw [old other before]
      exact Nat.lt_succ_of_lt (tracked.created other before)
    · rw [new]
      exact Nat.lt_succ_self _
  · exact Nat.lt_succ_of_lt (tracked.retired context member)
  · rcases unlessNew oneMember with oneBefore | rfl <;> rcases unlessNew member with before | rfl
    · rw [old one oneBefore, old other before]
      exact tracked.distinct one oneBefore other before different
    · rw [old one oneBefore, new]
      exact (tracked.created one oneBefore).ne
    · rw [old other before, new]
      exact (tracked.created other before).ne'
    · exact absurd rfl different
  · rcases unlessNew member with before | rfl
    · rw [old other before]
      exact tracked.living other before
    · rw [new]
      exact fun isRetired => (tracked.retired _ isRetired).ne rfl
  · rcases tracked.registered node member context registered with isRetired | ⟨listed, same⟩
    · exact Or.inl isRetired
    · exact Or.inr ⟨mem_append_left _ listed, (old _ listed).trans same⟩

theorem Tracked.ended (tracked : Tracked s refs) {ref : Ref} (member : ref ∈ refs)
    (distinct : refs.Nodup) (memory : MpContexts σ κ) :
    Tracked (s.ended memory ref) (refs.erase ref) := by
  refine ⟨fun other stays => tracked.created other (mem_of_mem_erase stays), ?_,
    fun one oneStays other stays => tracked.distinct one (mem_of_mem_erase oneStays) other
      (mem_of_mem_erase stays), ?_, ?_⟩
  · intro context isRetired
    rcases mem_cons.mp isRetired with rfl | before
    · exact tracked.created ref member
    · exact tracked.retired context before
  · intro other stays isRetired
    have listed := mem_of_mem_erase stays
    have different : other ≠ ref := fun same => distinct.not_mem_erase (same ▸ stays)
    rcases mem_cons.mp isRetired with same | before
    · exact tracked.distinct other listed ref member different same
    · exact tracked.living other listed before
  · intro node inList context registered
    rcases tracked.registered node inList context registered with isRetired | ⟨listed, same⟩
    · exact Or.inl (mem_cons_of_mem _ isRetired)
    · by_cases here : node.response.context = ref
      · exact Or.inl (by
          rw [← same, here]
          exact mem_cons_self)
      · exact Or.inr ⟨(mem_erase_of_ne here).mpr listed, same⟩

/-- The incarnations are known whatever happens. -/
theorem Outcome.tracked [DecidableEq κ] [Zero Obj] (holds : RuntimeLinked s refs)
    (tracked : Tracked s refs) (outcome : Outcome s refs event after later) :
    Tracked after later := by
  have same : ∀ {changed : Runtime σ κ Obj}, changed.incarnation = s.incarnation →
      changed.created = s.created → changed.retired = s.retired →
      changed.responses.head = s.responses.head → Tracked changed refs := by
    rintro changed incarnation created retired head
    exact ⟨incarnation ▸ created ▸ tracked.created, retired ▸ created ▸ tracked.retired,
      incarnation ▸ tracked.distinct, incarnation ▸ retired ▸ tracked.living,
      head ▸ retired ▸ incarnation ▸ tracked.registered⟩
  obtain ⟨ledger, linked⟩ := holds.linked
  cases outcome with
  | @started args mallocs task memory created appended =>
    have begun := tracked.begun appended.fresh memory
    cases created with
    | none => exact begun
    | some handle =>
      exact ⟨begun.created, begun.retired, begun.distinct, begun.living, begun.registered⟩
  | ended removes member named removed => exact tracked.ended member linked.distinct _
  | @responded event responses nodes untargeted plain head registered =>
    refine ⟨tracked.created, tracked.retired, tracked.distinct, tracked.living, ?_⟩
    intro node member context isRegistered
    rw [head] at member
    rcases mem_append.mp member with before | isNew
    · exact tracked.registered node before context isRegistered
    · rw [registered node isNew, linked.contextList_eq] at isRegistered
      split at isRegistered
      · next listed => exact Or.inr ⟨listed, Option.some.inj isRegistered⟩
      · cases isRegistered
  | notStarted | entered | unclaimed | switched | notEnded | noThreads | threadInit | threadCreated
  | threadAdded | cleanedUp => exact same rfl rfl rfl rfl

/-- `notify` delivers to listed contexts exactly if no match is an orphan. -/
theorem Tracked.deliversToListed_iff (holds : RuntimeLinked s refs) (tracked : Tracked s refs)
    (equal : Obj → Obj → Except ε Bool) (mpConstNone : Obj) (event : RuntimeEvent κ Obj) :
    s.DeliversToListed equal mpConstNone event ↔ s.NoOrphanMatches equal mpConstNone event := by
  obtain ⟨ledger, linked⟩ := holds.linked
  cases event with
  | notify condition =>
    simp only [Runtime.DeliversToListed, Runtime.NoOrphanMatches, linked.contextList_eq,
      (multipythonNotify_followed equal mpConstNone condition s.responses).1]
    by_cases guarded : passes equal mpConstNone condition = true
    · simp only [guarded, if_true, forall_const, mem_filter, and_imp]
      refine forall₃_congr fun node member _ => tracked.target_iff ?_
      exact (takeWhile_sublist _).mem member
    · simp [guarded]
  | _ => exact Iff.rfl

end Steps

/-- In a run every `notify` writes to contexts in the list that the responses were registered for,
if and only if no `notify` matches a response whose context was removed since it was
registered. -/
theorem notify_deliversToListed_iff [Zero σ] [DecidableEq κ] [Zero Obj]
    {equal : Obj → Obj → Except ε Bool} {mpConstNone : Obj} {defaultContext defaultState : Ref}
    {state : σ} {mainTask : Nat} {run : List (RuntimeEvent κ Obj × Runtime σ κ Obj)}
    (notNull : defaultContext ≠ 0) (bounded : defaultContext < addressSpace)
    (runs : Run (Runtime.Step equal mpConstNone)
      (Runtime.initial defaultContext defaultState state mainTask) run) :
    (∀ taken ∈ fired (Runtime.initial defaultContext defaultState state mainTask) run,
        taken.1.DeliversToListed equal mpConstNone taken.2) ↔
      ∀ taken ∈ fired (Runtime.initial defaultContext defaultState state mainTask) run,
        taken.1.NoOrphanMatches equal mpConstNone taken.2 := by
  have initial : Tracked (Runtime.initial defaultContext defaultState state mainTask :
      Runtime σ κ Obj) [defaultContext] := by
    refine ⟨fun _ _ => Nat.one_pos, by simp [Runtime.initial], ?_, by simp [Runtime.initial],
      by simp [Runtime.initial]⟩
    intro ref member other otherMember different
    exact absurd ((mem_singleton.mp member).trans (mem_singleton.mp otherMember).symm)
      different
  have always := runs.invariant (fun s => ∃ refs, RuntimeLinked s refs ∧ Tracked s refs)
    ⟨_, Runtime.initial_linked defaultState state mainTask notNull bounded, initial⟩
    (by
      rintro s event after ⟨refs, holds, tracked⟩ stepped
      obtain ⟨later, outcome⟩ := stepped.outcome holds
      exact ⟨later, outcome.linked holds, outcome.tracked holds tracked⟩)
  refine forall₂_congr fun taken member => ?_
  obtain ⟨refs, holds, tracked⟩ := always taken.1 (mem_visited_of_fired member)
  exact tracked.deliversToListed_iff holds equal mpConstNone taken.2

/-- A response for a context that is still there. -/
theorem notify_deliversToListed_registered :
    let start : Runtime Nat Bool Nat := Runtime.initial 4 8 0 100
    let equal : Nat → Nat → Except Unit Bool := fun one other => .ok (decide (one = other))
    let run := trace (Runtime.step · equal 0) start
      [.mpTaskSwitchedIn false 100, .taskEntry false 4,
        .responseMakeNew ⟨some 7, some 4, none, some 10⟩ true true, .notify 7]
    run.length = 4 ∧ ∀ taken ∈ fired start run, taken.1.DeliversToListed equal 0 taken.2 := by
  intro start equal run
  have runs : Run (Runtime.Step equal 0) start run :=
    Run.of_trace (fun s event => Runtime.Promised s event)
      (fun promised happens => ⟨promised, happens⟩) _ (by decide)
  exact ⟨by decide, (notify_deliversToListed_iff (by decide) (by decide) runs).mpr
    (by decide)⟩

/-- A context is stopped between the registration of a response for it and the notification. -/
theorem notify_follows_removed_context :
    let start : Runtime Nat Bool Nat := Runtime.initial 4 8 0 100
    let equal : Nat → Nat → Except Unit Bool := fun one other => .ok (decide (one = other))
    let run := trace (Runtime.step · equal 0) start
      [.mpTaskSwitchedIn false 100, .taskEntry false 4,
        .multipythonStart ⟨some 3, none, none⟩ ⟨16, 20, 24, 28⟩ (some 200),
        .mpTaskSwitchedIn false 200, .taskEntry false 16, .mpTaskSwitchedIn false 100,
        .responseMakeNew ⟨some 7, some 16, none, some 10⟩ true true, .multipythonEndTask 200,
        .notify 7]
    Run (Runtime.Step equal 0) start run ∧
      ∃ taken ∈ fired start run, taken.1.memory.contexts 16 = none ∧
        ((multipythonNotify equal 0 taken.1.responses 7).followed.map
          fun node => node.response.context) = [16] ∧
        ¬taken.1.DeliversToListed equal 0 taken.2 := by
  intro start equal run
  refine ⟨Run.of_trace (fun s event => Runtime.Promised s event)
      (fun promised happens => ⟨promised, happens⟩) _ (by decide),
    (fired start run).getLast (by decide), getLast_mem _, by decide,
    by decide, by decide⟩

end MultiPython.Esp32
