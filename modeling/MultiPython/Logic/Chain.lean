import Mathlib

/-!
# Chains of nodes in a store

A store maps references to nodes, and reference 0 is null. `Chain` says that
following the links from a reference visits a given list of references and then
comes to null. `walk` follows the links until a node stops it; on a chain its
result is the first reference of the list whose node does. The other lemmas say
what changing a store does to its chains.
-/

namespace MultiPython.Logic

open List Option

variable {ν : Type*} (next : ν → Nat)

/-- Follow the links from `ref` to the first node that meets `stop`, or to null. The
walk fails when it comes to a reference without a node, or runs out of fuel. -/
def walk (load : Nat → Option ν) (stop : ν → Bool) : Nat → Nat → Option Nat
  | 0, _ => none
  | fuel + 1, ref =>
    if ref = 0 then
      some 0
    else
      match load ref with
      | none => none
      | some node => if stop node then some ref else walk load stop fuel (next node)

/-- The references met by following the links from `ref`. -/
def follow (load : Nat → Option ν) : Nat → Nat → List Nat
  | 0, _ => []
  | fuel + 1, ref =>
    if ref = 0 then
      []
    else
      match load ref with
      | none => []
      | some node => ref :: follow load fuel (next node)

/-- Following the links from a reference visits this list. -/
inductive Chain (load : Nat → Option ν) : Nat → List Nat → Prop where
  | nil : Chain load 0 []
  | cons {ref node rest} (notNull : ref ≠ 0) (loaded : load ref = some node)
      (tail : Chain load (next node) rest) : Chain load ref (ref :: rest)

variable {next} {load changed : Nat → Option ν} {start : Nat} {refs : List Nat}

/-- Whether the node at a reference meets a test. -/
def meets (load : Nat → Option ν) (stop : ν → Bool) (ref : Nat) : Bool :=
  ((load ref).map stop).getD false

namespace Chain

/-- A chain starts with its first reference. -/
theorem start_eq (chain : Chain next load start refs) : start = refs.headD 0 := by
  cases chain <;> rfl

/-- A chain that is not empty starts with a node and goes on from there. -/
theorem uncons {ref : Nat} {rest : List Nat} (chain : Chain next load start (ref :: rest)) :
    start = ref ∧ ref ≠ 0 ∧ ∃ node, load ref = some node ∧ Chain next load (next node) rest := by
  cases chain with
  | cons notNull loaded tail => exact ⟨rfl, notNull, _, loaded, tail⟩

section

variable (chain : Chain next load start refs)

include chain

theorem ne_zero : ∀ ref ∈ refs, ref ≠ 0 := by
  induction chain with
  | nil => simp
  | cons notNull _ _ ih =>
    intro ref member
    rcases mem_cons.mp member with rfl | member
    · exact notNull
    · exact ih ref member

/-- Every reference of a chain has a node. -/
theorem loaded :
    ∀ ref ∈ refs, ∃ node, load ref = some node := by
  induction chain with
  | nil => simp
  | @cons ref node rest _ loaded _ ih =>
    intro other member
    rcases mem_cons.mp member with rfl | member
    · exact ⟨node, loaded⟩
    · exact ih other member

/-- A walk over a chain finds the first node that stops it. -/
theorem walk_eq (stop : ν → Bool) {fuel : Nat} (enough : refs.length < fuel) :
    walk next load stop fuel start = some ((refs.find? (meets load stop)).getD 0) := by
  induction chain generalizing fuel with
  | nil =>
    obtain ⟨fuel, rfl⟩ : ∃ more, fuel = more + 1 := ⟨fuel - 1, by omega⟩
    simp [walk]
  | @cons ref node rest notNull loaded _ ih =>
    rw [length_cons] at enough
    obtain ⟨fuel, rfl⟩ : ∃ more, fuel = more + 1 := ⟨fuel - 1, by omega⟩
    have here : meets load stop ref = stop node := by simp [meets, loaded]
    simp only [walk, notNull, if_false, loaded, find?_cons, here]
    cases stop node with
    | true => rfl
    | false => exact ih (by omega)

/-- A chain depends on the links of its own nodes only. -/
theorem congr (same : ∀ ref ∈ refs, (changed ref).map next = (load ref).map next) :
    Chain next changed start refs := by
  induction chain with
  | nil => exact .nil
  | @cons ref node rest notNull loaded _ ih =>
    have here := same ref mem_cons_self
    rw [loaded, map_some] at here
    obtain ⟨other, otherLoaded, sameNext⟩ := map_eq_some_iff.mp here
    refine .cons notNull otherLoaded ?_
    rw [sameNext]
    exact ih fun ref member => same ref (mem_cons_of_mem _ member)

end

/-- Link one more node behind the last one. -/
theorem snoc {fresh : Nat} (chain : Chain next load start refs) (some_ : refs ≠ [])
    (notNull : fresh ≠ 0) (last : (changed (refs.getLast some_)).map next = some fresh)
    (added : (changed fresh).map next = some 0)
    (same : ∀ ref ∈ refs, ref ≠ refs.getLast some_ →
      (changed ref).map next = (load ref).map next) (distinct : refs.Nodup) :
    Chain next changed start (refs ++ [fresh]) := by
  induction chain with
  | nil => exact absurd rfl some_
  | @cons ref node rest refNotNull loaded tail ih =>
    cases rest with
    | nil =>
      obtain ⟨lastNode, lastLoaded, lastNext⟩ := map_eq_some_iff.mp last
      obtain ⟨addedNode, addedLoaded, addedNext⟩ := map_eq_some_iff.mp added
      refine .cons refNotNull lastLoaded ?_
      rw [lastNext]
      refine .cons notNull addedLoaded ?_
      rw [addedNext]
      exact .nil
    | cons second more =>
      have lastEq := @getLast_cons _ ref _ (cons_ne_nil second more)
      have notIn := (nodup_cons.mp distinct).1
      rw [lastEq] at last same
      have here := same ref mem_cons_self (by
        intro isLast
        exact notIn (isLast ▸ getLast_mem _))
      rw [loaded, map_some] at here
      obtain ⟨other, otherLoaded, sameNext⟩ := map_eq_some_iff.mp here
      refine .cons refNotNull otherLoaded ?_
      rw [sameNext]
      exact ih (cons_ne_nil _ _) last
        (fun ref member => same ref (mem_cons_of_mem _ member))
        (nodup_cons.mp distinct).2

variable {early late : List Nat} {before ref : Nat}

/-- The link of the node before `ref` in a chain leads to `ref`. -/
theorem link (chain : Chain next load start (early ++ before :: ref :: late)) :
    (load before).map next = some ref := by
  induction early generalizing start with
  | nil =>
    obtain ⟨_, _, node, loaded, tail⟩ := chain.uncons
    simp [loaded, tail.start_eq]
  | cons first early ih =>
    obtain ⟨_, _, _, _, tail⟩ := chain.uncons
    exact ih tail

/-- The last node of a chain has no successor. -/
theorem link_last {early : List Nat} {last : Nat} (chain : Chain next load start (early ++ [last])) :
    (load last).map next = some 0 := by
  induction early generalizing start with
  | nil =>
    obtain ⟨_, _, node, loaded, tail⟩ := chain.uncons
    simp [loaded, tail.start_eq]
  | cons first early ih =>
    obtain ⟨_, _, _, _, tail⟩ := chain.uncons
    exact ih tail

/-- Unlink one node. -/
theorem unlink (chain : Chain next load start (early ++ before :: ref :: late))
    (relinked : (changed before).map next = (load ref).map next)
    (same : ∀ other ∈ early ++ late, (changed other).map next = (load other).map next) :
    Chain next changed start (early ++ before :: late) := by
  induction early generalizing start with
  | nil =>
    obtain ⟨rfl, notNull, _, _, tail⟩ := chain.uncons
    obtain ⟨_, _, node, loaded, rest⟩ := tail.uncons
    rw [loaded, map_some] at relinked
    obtain ⟨other, otherLoaded, sameNext⟩ := map_eq_some_iff.mp relinked
    refine .cons notNull otherLoaded ?_
    rw [sameNext]
    exact rest.congr same
  | cons first early ih =>
    obtain ⟨rfl, notNull, node, loaded, tail⟩ := chain.uncons
    have here := same start mem_cons_self
    rw [loaded, map_some] at here
    obtain ⟨other, otherLoaded, sameNext⟩ := map_eq_some_iff.mp here
    refine .cons notNull otherLoaded ?_
    rw [sameNext]
    exact ih tail fun ref member => same ref (mem_cons_of_mem _ member)

/-- A link of a chain leads to a later reference or to null. -/
theorem link_mem_tail (chain : Chain next load start refs) {ref : Nat} (member : ref ∈ refs)
    {node : ν} (loaded : load ref = some node) : next node = 0 ∨ next node ∈ refs.tail := by
  induction chain with
  | nil => cases member
  | @cons first firstNode rest _ firstLoaded tail ih =>
    rcases mem_cons.mp member with rfl | member
    · obtain rfl : node = firstNode := some.inj (loaded.symm.trans firstLoaded)
      have start := tail.start_eq
      cases rest with
      | nil => exact .inl (by simpa using start)
      | cons second more => exact .inr (by simp [start])
    · rcases ih member with isNull | later
      · exact .inl isNull
      · exact .inr (mem_of_mem_tail later)

/-- The node that links to `ref` is the one before it. -/
theorem find_link (chain : Chain next load start (early ++ before :: ref :: late))
    (distinct : (early ++ before :: ref :: late).Nodup) :
    (early ++ before :: ref :: late).find? (meets load fun node => next node == ref) =
      some before := by
  induction early generalizing start with
  | nil =>
    obtain ⟨_, _, node, loaded, tail⟩ := chain.uncons
    have here : meets load (fun node => next node == ref) before = true := by
      simp [meets, loaded, tail.start_eq]
    exact find?_cons_of_pos here
  | cons first early ih =>
    obtain ⟨_, _, node, loaded, tail⟩ := chain.uncons
    have rest : (early ++ before :: ref :: late).Nodup := (nodup_cons.mp distinct).2
    have elsewhere : next node ≠ ref := by
      rw [tail.start_eq]
      intro same
      cases early with
      | nil =>
        obtain rfl : before = ref := same
        simp at rest
      | cons second more =>
        obtain rfl : second = ref := same
        simp at rest
    have other : ¬ meets load (fun node => next node == ref) first = true := by
      simpa [meets, loaded] using elsewhere
    rw [cons_append, find?_cons_of_neg other]
    exact ih tail rest

/-- The node without a successor is the last one. -/
theorem find_last {early : List Nat} {last : Nat}
    (chain : Chain next load start (early ++ [last])) :
    (early ++ [last]).find? (meets load fun node => next node == 0) = some last := by
  induction early generalizing start with
  | nil =>
    obtain ⟨_, _, node, loaded, tail⟩ := chain.uncons
    have here : meets load (fun node => next node == 0) last = true := by
      simp [meets, loaded, tail.start_eq]
    exact find?_cons_of_pos here
  | cons first early ih =>
    obtain ⟨_, _, node, loaded, tail⟩ := chain.uncons
    have goesOn : next node ≠ 0 := by
      rw [tail.start_eq]
      apply tail.ne_zero
      cases early <;> simp
    have other : ¬ meets load (fun node => next node == 0) first = true := by
      simpa [meets, loaded] using goesOn
    rw [cons_append, find?_cons_of_neg other]
    exact ih tail

/-- No node links to the first one. -/
theorem find_first (chain : Chain next load start refs) (some_ : refs ≠ []) (distinct : refs.Nodup) :
    refs.find? (meets load fun node => next node == start) = none := by
  obtain ⟨first, rest, rfl⟩ := exists_cons_of_ne_nil some_
  obtain ⟨rfl, notNull, _⟩ := chain.uncons
  apply find?_eq_none.mpr
  intro ref member
  obtain ⟨node, loaded⟩ := chain.loaded ref member
  have notFirst := (nodup_cons.mp distinct).1
  rcases chain.link_mem_tail member loaded with isNull | later
  · simpa [meets, loaded, isNull] using notNull.symm
  · have apart : next node ≠ start := fun same => notFirst (same ▸ later)
    simpa [meets, loaded] using apart

end Chain

/-- Following the nodes of a chain lists its references. -/
theorem Chain.follow_eq (chain : Chain next load start refs) {fuel : Nat}
    (enough : refs.length ≤ fuel) : follow next load fuel start = refs := by
  induction chain generalizing fuel with
  | nil => cases fuel <;> simp [follow]
  | @cons ref node rest notNull loaded _ ih =>
    rw [length_cons] at enough
    obtain ⟨fuel, rfl⟩ : ∃ more, fuel = more + 1 := ⟨fuel - 1, by omega⟩
    rw [follow, if_neg notNull, loaded]
    exact congrArg (ref :: ·) (ih (by omega))

/-- Different numbers below a bound that are not 0 are fewer than the bound. -/
theorem length_lt_of_nodup {bound : Nat} (distinct : refs.Nodup) (notNull : ∀ ref ∈ refs, ref ≠ 0)
    (below : ∀ ref ∈ refs, ref < bound) (positive : 0 < bound) : refs.length < bound := by
  have withNull : (0 :: refs).Nodup :=
    nodup_cons.mpr ⟨fun member => notNull 0 member rfl, distinct⟩
  have inRange : 0 :: refs ⊆ range bound := by
    intro ref member
    rcases mem_cons.mp member with rfl | member
    · exact mem_range.mpr positive
    · exact mem_range.mpr (below ref member)
  simpa using (withNull.subperm inRange).length_le

end MultiPython.Logic
