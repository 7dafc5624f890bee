import Mathlib

/-!
# Marking with a bounded stack

A marker keeps the nodes it has yet to scan on a stack of fixed capacity. A node
that is marked while the stack is full is not remembered at all; only a flag
records that this happened. `settle` repairs the loss by scanning every marked
node again until one whole pass leaves the flag clear.

Nothing here depends on what a node is. `mark_exact` says that the nodes marked
in the end are the ones reachable from the roots, for every successor function,
every capacity and every moment at which the stack may have been full.
-/

namespace MultiPython.Logic.Marking

open List

variable {α : Type*} [DecidableEq α]

/-- The nodes still unmarked, the marked nodes waiting to be scanned, and the
flag that records a node marked without being remembered. -/
structure State (α : Type*) where
  white : Finset α
  stack : List α
  overflow : Bool

/-- Mark one node if it is unmarked, remembering it while there is room. -/
def offer (limit : Nat) (state : State α) (node : α) : State α :=
  if node ∈ state.white then
    if state.stack.length < limit then
      ⟨state.white.erase node, node :: state.stack, state.overflow⟩
    else
      ⟨state.white.erase node, state.stack, true⟩
  else
    state

/-- Offer every node of a list in turn. -/
def offerAll (limit : Nat) (state : State α) (nodes : List α) : State α :=
  nodes.foldl (offer limit) state

/-- Scan one node and then everything its scan leaves on the stack. -/
def drain (succ : α → List α) (limit : Nat) : Nat → State α → α → Option (State α)
  | 0, _, _ => none
  | fuel + 1, state, node =>
    let scanned := offerAll limit state (succ node)
    match scanned.stack with
    | [] => some scanned
    | next :: rest => drain succ limit fuel { scanned with stack := rest } next

/-- Mark a root and everything found from it, if it is still unmarked. -/
def trace (succ : α → List α) (limit fuel : Nat) (state : State α) (root : α) :
    Option (State α) :=
  if root ∈ state.white then
    drain succ limit fuel { state with white := state.white.erase root } root
  else
    some state

/-- Scan a node again if it belongs to `nodes` and is already marked. -/
def retrace (nodes : Finset α) (succ : α → List α) (limit fuel : Nat) (state : State α)
    (node : α) : Option (State α) :=
  if node ∈ nodes ∧ node ∉ state.white then drain succ limit fuel state node else some state

/-- Repeat whole passes over `order` until one leaves the overflow flag clear. -/
def settle (nodes : Finset α) (order : List α) (succ : α → List α) (limit fuel : Nat) :
    Nat → State α → Option (State α)
  | 0, _ => none
  | passes + 1, state =>
    if state.overflow then
      (order.foldlM (retrace nodes succ limit fuel) { state with overflow := false }).bind
        (settle nodes order succ limit fuel passes)
    else
      some state

/-- Reachability from a set of roots inside `nodes`. -/
inductive Reach (nodes : Finset α) (succ : α → List α) (roots : List α) : α → Prop where
  | root {node} (listed : node ∈ roots) (member : node ∈ nodes) : Reach nodes succ roots node
  | step {node next} (prior : Reach nodes succ roots node) (edge : next ∈ succ node)
      (member : next ∈ nodes) : Reach nodes succ roots next

omit [DecidableEq α] in
/-- Only nodes of `nodes` are reachable. -/
theorem Reach.member {nodes : Finset α} {succ : α → List α} {roots : List α} {node : α}
    (reach : Reach nodes succ roots node) : node ∈ nodes := by
  cases reach with
  | root _ inside => exact inside
  | step _ _ inside => exact inside

/-- What scanning may do to a state: mark nodes of `found`, push only nodes it
marks, and raise the flag only when it marks a node it cannot push. -/
structure Advance (found : α → Prop) (before after : State α) : Prop where
  shrinks : after.white ⊆ before.white
  pushed : ∃ fresh, after.stack = fresh ++ before.stack ∧
    ∀ node ∈ fresh, node ∈ before.white ∧ node ∉ after.white
  marked : ∀ node ∈ before.white, node ∉ after.white →
    found node ∧ (node ∈ after.stack ∨ after.overflow = true)
  keepsFlag : before.overflow = true → after.overflow = true
  flagMarks : after.overflow = true → before.overflow = true ∨ after.white ⊂ before.white
  measure : after.white.card + after.stack.length ≤ before.white.card + before.stack.length

omit [DecidableEq α] in
/-- Offering nothing changes nothing. -/
theorem Advance.refl (found : α → Prop) (state : State α) : Advance found state state where
  shrinks := Finset.Subset.refl _
  pushed := ⟨[], rfl, by simp⟩
  marked := fun _ present absent => absurd present absent
  keepsFlag := id
  flagMarks := Or.inl
  measure := Nat.le_refl _

/-- One offer advances the state and leaves the offered node marked. -/
theorem offer_advance (limit : Nat) (state : State α) (node : α) :
    Advance (· = node) state (offer limit state node) ∧ node ∉ (offer limit state node).white := by
  unfold offer
  by_cases unmarked : node ∈ state.white
  · have smaller := Finset.card_erase_lt_of_mem unmarked
    by_cases room : state.stack.length < limit
    · simp only [unmarked, room, if_true]
      refine ⟨⟨Finset.erase_subset _ _, ⟨[node], rfl, by simp [unmarked]⟩, ?_, id, .inl, ?_⟩,
        by simp⟩
      · intro other present absent
        have same : other = node := by simpa [present] using absent
        exact ⟨same, .inl (by simp [same])⟩
      · simp only [length_cons]
        omega
    · simp only [unmarked, room, if_true, if_false]
      refine ⟨⟨Finset.erase_subset _ _, ⟨[], rfl, by simp⟩, ?_, fun _ => rfl,
        fun _ => .inr (Finset.erase_ssubset unmarked), ?_⟩, by simp⟩
      · intro other present absent
        exact ⟨by simpa [present] using absent, .inr rfl⟩
      · exact Nat.add_le_add_right (Nat.le_of_lt smaller) _
  · simp only [unmarked, if_false]
    exact ⟨Advance.refl _ _, fun present => present.elim⟩

/-- Advances compose; each part contributes what it found. -/
theorem Advance.trans {first second : α → Prop} {before middle after : State α}
    (left : Advance first before middle) (right : Advance second middle after) :
    Advance (fun node => first node ∨ second node) before after where
  shrinks := right.shrinks.trans left.shrinks
  pushed := by
    obtain ⟨early, earlyStack, earlyMarked⟩ := left.pushed
    obtain ⟨late, lateStack, lateMarked⟩ := right.pushed
    refine ⟨late ++ early, by rw [lateStack, earlyStack, append_assoc], ?_⟩
    intro node member
    rcases mem_append.mp member with member | member
    · have marked := lateMarked node member
      exact ⟨left.shrinks marked.1, marked.2⟩
    · have marked := earlyMarked node member
      exact ⟨marked.1, fun present => marked.2 (right.shrinks present)⟩
  marked := by
    intro node present absent
    by_cases middleWhite : node ∈ middle.white
    · have found := right.marked node middleWhite absent
      exact ⟨.inr found.1, found.2⟩
    · have found := left.marked node present middleWhite
      refine ⟨.inl found.1, ?_⟩
      rcases found.2 with onStack | flagged
      · obtain ⟨late, lateStack, _⟩ := right.pushed
        exact .inl (by rw [lateStack]; exact mem_append_right _ onStack)
      · exact .inr (right.keepsFlag flagged)
  keepsFlag := fun flagged => right.keepsFlag (left.keepsFlag flagged)
  flagMarks := by
    intro flagged
    rcases right.flagMarks flagged with middleFlag | strict
    · rcases left.flagMarks middleFlag with beforeFlag | strict
      · exact .inl beforeFlag
      · exact .inr (Finset.ssubset_of_subset_of_ssubset right.shrinks strict)
    · exact .inr (Finset.ssubset_of_ssubset_of_subset strict left.shrinks)
  measure := Nat.le_trans right.measure left.measure

omit [DecidableEq α] in
/-- What an advance found may be described more loosely. -/
theorem Advance.mono {narrow wide : α → Prop} {before after : State α}
    (advance : Advance narrow before after) (weaken : ∀ node, narrow node → wide node) :
    Advance wide before after :=
  { advance with
    marked := fun node present absent =>
      have found := advance.marked node present absent
      ⟨weaken node found.1, found.2⟩ }

/-- Offering a list advances the state and leaves every offered node marked. -/
theorem offerAll_advance (limit : Nat) (nodes : List α) (state : State α) :
    Advance (· ∈ nodes) state (offerAll limit state nodes) ∧
      ∀ node ∈ nodes, node ∉ (offerAll limit state nodes).white := by
  induction nodes generalizing state with
  | nil => exact ⟨Advance.refl _ _, by simp⟩
  | cons node rest ih =>
    obtain ⟨headAdvance, headMarked⟩ := offer_advance limit state node
    obtain ⟨restAdvance, restMarked⟩ := ih (offer limit state node)
    refine ⟨(headAdvance.trans restAdvance).mono ?_, ?_⟩
    · rintro other (rfl | member)
      · exact mem_cons_self
      · exact mem_cons_of_mem _ member
    · intro other member present
      rcases mem_cons.mp member with rfl | member
      · exact headMarked (restAdvance.shrinks present)
      · exact restMarked other member present

/-- What draining the stack may do, with `starts` the nodes it was asked to scan.
Everything it marks lies in every set that holds `starts` and is closed under
unmarked successors, and unless the flag is up it leaves nothing half done. -/
structure Drained (succ : α → List α) (starts : α → Prop) (before after : State α) : Prop where
  emptied : after.stack = []
  shrinks : after.white ⊆ before.white
  keepsFlag : before.overflow = true → after.overflow = true
  flagMarks : after.overflow = true → before.overflow = true ∨ after.white ⊂ before.white
  found : ∀ closed : α → Prop, (∀ node, starts node → closed node) →
    (∀ node next, closed node → next ∈ succ node → next ∈ before.white → closed next) →
    ∀ node ∈ before.white, node ∉ after.white → closed node
  scanned : after.overflow = false →
    ∀ node, (starts node ∨ node ∈ before.white ∧ node ∉ after.white) →
      ∀ next ∈ succ node, next ∉ after.white

omit [DecidableEq α] in
/-- A state with an empty stack has nothing to drain. -/
theorem Drained.refl (succ : α → List α) {state : State α} (empty : state.stack = []) :
    Drained succ (fun _ => False) state state where
  emptied := empty
  shrinks := Finset.Subset.refl _
  keepsFlag := id
  flagMarks := Or.inl
  found := fun _ _ _ _ present absent => absurd present absent
  scanned := by
    rintro _ node (nothing | ⟨present, absent⟩)
    · exact nothing.elim
    · exact absurd present absent

omit [DecidableEq α] in
/-- Draining twice drains what both were asked for. -/
theorem Drained.trans {succ : α → List α} {first second : α → Prop}
    {before middle after : State α} (left : Drained succ first before middle)
    (right : Drained succ second middle after) :
    Drained succ (fun node => first node ∨ second node) before after where
  emptied := right.emptied
  shrinks := right.shrinks.trans left.shrinks
  keepsFlag := fun flagged => right.keepsFlag (left.keepsFlag flagged)
  flagMarks := by
    intro flagged
    rcases right.flagMarks flagged with middleFlag | strict
    · rcases left.flagMarks middleFlag with beforeFlag | strict
      · exact Or.inl beforeFlag
      · exact Or.inr (Finset.ssubset_of_subset_of_ssubset right.shrinks strict)
    · exact Or.inr (Finset.ssubset_of_ssubset_of_subset strict left.shrinks)
  found := by
    intro closed starts step node present absent
    by_cases middleWhite : node ∈ middle.white
    · exact right.found closed (fun other start => starts other (Or.inr start))
        (fun other next inside edge white => step other next inside edge (left.shrinks white))
        node middleWhite absent
    · exact left.found closed (fun other start => starts other (Or.inl start)) step
        node present middleWhite
  scanned := by
    intro clear node which next edge
    have middleClear : middle.overflow = false := by
      by_contra raised
      have flagged := right.keepsFlag (by simpa using raised)
      simp [clear] at flagged
    have fromLeft : (first node ∨ node ∈ before.white ∧ node ∉ middle.white) →
        next ∉ after.white := fun early present =>
      left.scanned middleClear node early next edge (right.shrinks present)
    rcases which with (start | start) | ⟨present, absent⟩
    · exact fromLeft (Or.inl start)
    · exact right.scanned clear node (Or.inl start) next edge
    · by_cases middleWhite : node ∈ middle.white
      · exact right.scanned clear node (Or.inr ⟨middleWhite, absent⟩) next edge
      · exact fromLeft (Or.inr ⟨present, middleWhite⟩)

omit [DecidableEq α] in
/-- The starting points of a drain matter only as a set. -/
theorem Drained.congr {succ : α → List α} {first second : α → Prop} {before after : State α}
    (drained : Drained succ first before after) (same : ∀ node, first node ↔ second node) :
    Drained succ second before after := by
  have equal : first = second := funext fun node => propext (same node)
  exact equal ▸ drained

variable {fuel : Nat}

/-- Draining ends within the measure of unmarked and waiting nodes. -/
theorem drain_drained (succ : α → List α) (limit : Nat) (state : State α) (node : α)
    (enough : state.white.card + state.stack.length < fuel) :
    ∃ final, drain succ limit fuel state node = some final ∧
      Drained succ (fun other => other = node ∨ other ∈ state.stack) state final := by
  induction fuel generalizing state node with
  | zero => omega
  | succ fuel ih =>
    obtain ⟨advance, allMarked⟩ := offerAll_advance limit (succ node) state
    obtain ⟨fresh, stackEq, freshMarked⟩ := advance.pushed
    simp only [drain]
    generalize offerAll limit state (succ node) = scanned at *
    cases stack : scanned.stack with
    | nil =>
      have stateEmpty : state.stack = [] := by
        rw [stack] at stackEq
        exact (append_eq_nil_iff.mp stackEq.symm).2
      refine ⟨scanned, rfl, stack, advance.shrinks, advance.keepsFlag, advance.flagMarks, ?_, ?_⟩
      · intro closed starts step other present absent
        exact step node other (starts node (.inl rfl))
          (advance.marked other present absent).1 present
      · rintro clear other ((rfl | waiting) | ⟨present, absent⟩)
        · exact allMarked
        · simp [stateEmpty] at waiting
        · rcases (advance.marked other present absent).2 with onStack | flagged
          · simp [stack] at onStack
          · simp [clear] at flagged
    | cons next rest =>
      have measure := advance.measure
      rw [stack, length_cons] at measure
      obtain ⟨final, finalEq, drained⟩ :=
        ih { scanned with stack := rest } next (by
          change scanned.white.card + rest.length < fuel
          omega)
      have waiting : ∀ other, other ∈ scanned.stack → other = next ∨ other ∈ rest := by
        intro other member
        simpa [stack] using member
      refine ⟨final, finalEq, drained.emptied, drained.shrinks.trans advance.shrinks,
        fun flagged => drained.keepsFlag (advance.keepsFlag flagged), ?_, ?_, ?_⟩
      · intro flagged
        rcases drained.flagMarks flagged with scannedFlag | strict
        · rcases advance.flagMarks scannedFlag with stateFlag | strict
          · exact .inl stateFlag
          · exact .inr (Finset.ssubset_of_subset_of_ssubset drained.shrinks strict)
        · exact .inr (Finset.ssubset_of_ssubset_of_subset strict advance.shrinks)
      · intro closed starts step other present absent
        have direct : ∀ other, other ∈ state.white → other ∉ scanned.white → closed other :=
          fun other present absent => step node other (starts node (.inl rfl))
            (advance.marked other present absent).1 present
        by_cases scannedWhite : other ∈ scanned.white
        · refine drained.found closed ?_ ?_ other scannedWhite absent
          · intro start which
            have member : start ∈ fresh ++ state.stack := by
              rw [← stackEq, stack]
              simpa using which
            rcases mem_append.mp member with isFresh | isOld
            · exact direct start (freshMarked start isFresh).1 (freshMarked start isFresh).2
            · exact starts start (.inr isOld)
          · intro from_ to_ inside edge white
            exact step from_ to_ inside edge (advance.shrinks white)
        · exact direct other present scannedWhite
      · intro clear other which successor edge
        have scannedClear : scanned.overflow = false := by
          by_contra raised
          have flagged := drained.keepsFlag (by simpa using raised)
          simp [clear] at flagged
        have late : other ∈ scanned.stack → successor ∉ final.white := fun onStack =>
          drained.scanned clear other (.inl (waiting other onStack)) successor edge
        rcases which with (rfl | old) | ⟨present, absent⟩
        · exact fun present => allMarked successor edge (drained.shrinks present)
        · exact late (by rw [stackEq]; exact mem_append_right _ old)
        · by_cases scannedWhite : other ∈ scanned.white
          · exact drained.scanned clear other (.inr ⟨scannedWhite, absent⟩) successor edge
          · rcases (advance.marked other present scannedWhite).2 with onStack | flagged
            · exact late onStack
            · simp [scannedClear] at flagged

variable {state : State α}

/-- Tracing a root marks it and scans it if it was unmarked. -/
theorem trace_drained (succ : α → List α) (limit : Nat) (root : α) (empty : state.stack = [])
    (enough : state.white.card < fuel) :
    ∃ final, trace succ limit fuel state root = some final ∧ root ∉ final.white ∧
      Drained succ (fun node => node = root ∧ root ∈ state.white) state final := by
  unfold trace
  by_cases unmarked : root ∈ state.white
  · have smaller := Finset.card_erase_lt_of_mem unmarked
    obtain ⟨final, finalEq, drained⟩ := drain_drained succ limit
      { state with white := state.white.erase root } root
      (show (state.white.erase root).card + state.stack.length < fuel by
        simp only [empty, length_nil]; omega)
    refine ⟨final, by simp [unmarked, finalEq],
      fun present => by simpa using drained.shrinks present,
      drained.emptied, drained.shrinks.trans (Finset.erase_subset _ _), drained.keepsFlag, ?_, ?_, ?_⟩
    · intro flagged
      rcases drained.flagMarks flagged with before | strict
      · exact .inl before
      · exact .inr (Finset.ssubset_of_ssubset_of_subset strict (Finset.erase_subset _ _))
    · intro closed starts step node present absent
      by_cases same : node = root
      · exact starts node ⟨same, unmarked⟩
      · refine drained.found closed ?_ ?_ node (Finset.mem_erase.mpr ⟨same, present⟩) absent
        · rintro other (rfl | waiting)
          · exact starts other ⟨rfl, unmarked⟩
          · simp [empty] at waiting
        · intro other next inside edge white
          exact step other next inside edge (Finset.mem_of_mem_erase white)
    · intro clear node which
      refine drained.scanned clear node ?_
      rcases which with ⟨rfl, _⟩ | ⟨present, absent⟩
      · exact .inl (.inl rfl)
      · by_cases same : node = root
        · exact .inl (.inl same)
        · exact .inr ⟨Finset.mem_erase.mpr ⟨same, present⟩, absent⟩
  · refine ⟨state, by simp [unmarked], unmarked, (Drained.refl succ empty).congr ?_⟩
    intro node
    simp [unmarked]

/-- Scanning a node again is a drain that starts there if it is marked. -/
theorem retrace_drained (nodes : Finset α) (succ : α → List α) (limit : Nat) (node : α)
    (empty : state.stack = []) (enough : state.white.card < fuel) :
    ∃ final, retrace nodes succ limit fuel state node = some final ∧
      Drained succ (fun other => other = node ∧ node ∈ nodes ∧ node ∉ state.white) state final := by
  unfold retrace
  by_cases marked : node ∈ nodes ∧ node ∉ state.white
  · obtain ⟨final, finalEq, drained⟩ := drain_drained succ limit state node
      (show state.white.card + state.stack.length < fuel by
        simp only [empty, length_nil]; omega)
    refine ⟨final, by simp [marked, finalEq], drained.congr ?_⟩
    intro other
    simp [empty, marked]
  · refine ⟨state, by simp [marked], (Drained.refl succ empty).congr ?_⟩
    intro other
    simp only [marked, and_false]

/-- Tracing a list of roots leaves each of them marked. -/
theorem traceAll_drained (succ : α → List α) (limit : Nat) (roots : List α) (state : State α)
    (empty : state.stack = []) (enough : state.white.card < fuel) :
    ∃ final, roots.foldlM (trace succ limit fuel) state = some final ∧
      (∀ root ∈ roots, root ∉ final.white) ∧
      Drained succ (fun node => node ∈ roots ∧ node ∈ state.white) state final := by
  induction roots generalizing state with
  | nil => exact ⟨state, rfl, by simp, (Drained.refl succ empty).congr (by simp)⟩
  | cons root rest ih =>
    obtain ⟨middle, middleEq, rootMarked, first⟩ := trace_drained succ limit root empty enough
    have fewer : middle.white.card < fuel :=
      Nat.lt_of_le_of_lt (Finset.card_le_card first.shrinks) enough
    obtain ⟨final, finalEq, restMarked, second⟩ := ih middle first.emptied fewer
    refine ⟨final, by simp [middleEq, finalEq], ?_, ?_⟩
    · intro other member
      rcases mem_cons.mp member with rfl | member
      · exact fun present => rootMarked (second.shrinks present)
      · exact restMarked other member
    · have both := first.trans second
      refine { both with
        found := fun closed starts => both.found closed fun node which => ?_
        scanned := fun clear node which => both.scanned clear node ?_ }
      · rcases which with ⟨rfl, white⟩ | ⟨member, white⟩
        · exact starts node ⟨mem_cons_self, white⟩
        · exact starts node ⟨mem_cons_of_mem _ member, first.shrinks white⟩
      · rcases which with ⟨member, white⟩ | fresh
        · rcases mem_cons.mp member with rfl | member
          · exact .inl (.inl ⟨rfl, white⟩)
          · by_cases middleWhite : node ∈ middle.white
            · exact .inl (.inr ⟨member, middleWhite⟩)
            · exact .inr ⟨white, fun present => middleWhite (second.shrinks present)⟩
        · exact .inr fresh

/-- Every marked node of `nodes` has only marked successors. -/
def Closed (nodes : Finset α) (succ : α → List α) (state : State α) : Prop :=
  ∀ node ∈ nodes, node ∉ state.white → ∀ next ∈ succ node, next ∉ state.white

/-- Marked nodes are reachable, and unmarked ones belong to `nodes`. -/
structure Sound (nodes : Finset α) (succ : α → List α) (roots : List α) (state : State α) :
    Prop where
  within : state.white ⊆ nodes
  reached : ∀ node ∈ nodes, node ∉ state.white → Reach nodes succ roots node

variable {roots : List α}

/-- A drain that starts at reachable nodes marks reachable nodes only. -/
theorem Drained.sound {nodes : Finset α} {succ : α → List α} {starts : α → Prop}
    {before after : State α} (drained : Drained succ starts before after)
    (sound : Sound nodes succ roots before)
    (reached : ∀ node, starts node → Reach nodes succ roots node) :
    Sound nodes succ roots after where
  within := drained.shrinks.trans sound.within
  reached := by
    intro node member absent
    by_cases white : node ∈ before.white
    · exact drained.found (Reach nodes succ roots) reached
        (fun _ _ inside edge fresh => .step inside edge (sound.within fresh)) node white absent
    · exact sound.reached node member white

/-- One pass drains, among others, every node that was marked before it. -/
theorem retraceAll_drained (nodes : Finset α) (succ : α → List α) (limit : Nat) (order : List α)
    (state : State α) (empty : state.stack = []) (sound : Sound nodes succ roots state)
    (enough : state.white.card < fuel) :
    ∃ final starts, order.foldlM (retrace nodes succ limit fuel) state = some final ∧
      Drained succ starts state final ∧ Sound nodes succ roots final ∧
      ∀ node ∈ order, node ∈ nodes → node ∉ state.white → starts node := by
  induction order generalizing state with
  | nil => exact ⟨state, _, rfl, Drained.refl succ empty, sound, by simp⟩
  | cons node rest ih =>
    obtain ⟨middle, middleEq, first⟩ := retrace_drained nodes succ limit node empty enough
    have fewer : middle.white.card < fuel :=
      Nat.lt_of_le_of_lt (Finset.card_le_card first.shrinks) enough
    have middleSound : Sound nodes succ roots middle := first.sound sound (by
      rintro other ⟨rfl, listed, marked⟩
      exact sound.reached other listed marked)
    obtain ⟨final, starts, finalEq, second, finalSound, covers⟩ :=
      ih middle first.emptied middleSound fewer
    refine ⟨final, _, by simp [middleEq, finalEq], first.trans second, finalSound, ?_⟩
    intro other member listed marked
    rcases mem_cons.mp member with rfl | member
    · exact .inl ⟨rfl, listed, marked⟩
    · exact .inr (covers other member listed fun white => marked (first.shrinks white))

/-- The repeated passes end, with the flag clear and nothing half done. -/
theorem settle_closed {nodes : Finset α} {order : List α} (succ : α → List α) (limit : Nat)
    {fuel passes : Nat} (complete : ∀ node ∈ nodes, node ∈ order) (empty : state.stack = [])
    (sound : Sound nodes succ roots state) (half : state.overflow = false → Closed nodes succ state)
    (enough : state.white.card < fuel) (rounds : state.white.card + 1 < passes) :
    ∃ final, settle nodes order succ limit fuel passes state = some final ∧
      final.overflow = false ∧ final.white ⊆ state.white ∧ Sound nodes succ roots final ∧
      Closed nodes succ final := by
  induction passes generalizing state with
  | zero => omega
  | succ passes ih =>
    by_cases flagged : state.overflow = true
    · obtain ⟨middle, starts, middleEq, drained, middleSound, covers⟩ :=
        retraceAll_drained nodes succ limit order { state with overflow := false } empty
          ⟨sound.within, sound.reached⟩ enough
      have middleHalf : middle.overflow = false → Closed nodes succ middle := by
        intro clear node member absent
        refine drained.scanned clear node ?_
        by_cases white : node ∈ state.white
        · exact .inr ⟨white, absent⟩
        · exact .inl (covers node (complete node member) member white)
      have fewer : middle.white.card < fuel :=
        Nat.lt_of_le_of_lt (Finset.card_le_card drained.shrinks) enough
      by_cases again : middle.overflow = true
      · -- A pass that raises the flag again has marked at least one more node.
        have strict : middle.white ⊂ state.white := by
          simpa using drained.flagMarks again
        have smaller := Finset.card_lt_card strict
        obtain ⟨final, finalEq, clear, shrinks, rest⟩ :=
          ih drained.emptied middleSound middleHalf fewer (by omega)
        exact ⟨final, by simp [settle, flagged, middleEq, finalEq], clear,
          shrinks.trans drained.shrinks, rest⟩
      · have clear : middle.overflow = false := by simpa using again
        obtain ⟨passes, rfl⟩ : ∃ more, passes = more + 1 := ⟨passes - 1, by omega⟩
        exact ⟨middle, by simp [settle, flagged, middleEq, clear], clear, drained.shrinks,
          middleSound, middleHalf clear⟩
    · have clear : state.overflow = false := by simpa using flagged
      exact ⟨state, by simp [settle, clear], clear, Finset.Subset.refl _, sound, half clear⟩

/-- Tracing the roots and settling marks exactly the reachable nodes. -/
theorem mark_exact (nodes : Finset α) (order : List α) (succ : α → List α) (limit : Nat)
    {fuel passes : Nat} (roots : List α) (complete : ∀ node ∈ nodes, node ∈ order)
    (enough : nodes.card < fuel) (rounds : nodes.card + 1 < passes) :
    ∃ traced final, roots.foldlM (trace succ limit fuel) ⟨nodes, [], false⟩ = some traced ∧
      settle nodes order succ limit fuel passes traced = some final ∧ final.overflow = false ∧
      final.white ⊆ nodes ∧ ∀ node ∈ nodes, node ∉ final.white ↔ Reach nodes succ roots node := by
  obtain ⟨traced, tracedEq, rootsMarked, drained⟩ :=
    traceAll_drained succ limit roots ⟨nodes, [], false⟩ rfl enough
  have tracedSound : Sound nodes succ roots traced :=
    drained.sound ⟨Finset.Subset.refl _, fun _ member absent => absurd member absent⟩
      fun node ⟨listed, member⟩ => .root listed member
  have half : traced.overflow = false → Closed nodes succ traced := fun clear node member absent =>
    drained.scanned clear node (.inr ⟨member, absent⟩)
  have fewer := Finset.card_le_card drained.shrinks
  obtain ⟨final, finalEq, clear, shrinks, finalSound, closed⟩ :=
    settle_closed succ limit complete drained.emptied tracedSound half
      (Nat.lt_of_le_of_lt fewer enough) (show traced.white.card + 1 < passes by
        change traced.white.card ≤ nodes.card at fewer
        omega)
  refine ⟨traced, final, tracedEq, finalEq, clear, finalSound.within, fun node member => ?_⟩
  constructor
  · exact finalSound.reached node member
  · intro reach
    induction reach with
    | root listed _ => exact fun white => rootsMarked _ listed (shrinks white)
    | step prior edge _ ih =>
      exact closed _ prior.member (ih prior.member) _ edge

end MultiPython.Logic.Marking
