import MultiPython.Heap.Sweep

/-!
# Chunks and the walks that measure them

A chunk is a head and the tails that directly follow it in the table.
`InChunk` says which entries those are. The walk of `gc_mark_subtree`, `gc_free`
and `gc_nbytes` is not told where the table ends: `lt_chainLength_iff` says which
entries it takes for part of the chunk, and `Overrun` are those of them that lie
behind the table.
-/

namespace MultiPython.Heap

variable {config : Config}

/-- A laid out heap whose table is the table of a heap between two collections: the
tails belong to chunks and no mark is set. -/
structure WellFormed (config : Config) (state : MpStateMem) : Prop where
  valid : state.layout.Valid config
  attached : TailsAttached state
  unmarked : ∀ block < state.blocks, state.atbGetKind block ≠ .mark

/-- Every entry after `block` up to `entry` reads as a tail. -/
def TailsUpTo (state : MpStateMem) (block entry : Nat) : Prop :=
  ∀ other, block < other → other ≤ entry → state.atbGetKind other = .tail

/-- The entry belongs to the chunk that starts at `block`. -/
structure InChunk (state : MpStateMem) (block entry : Nat) : Prop where
  above : block ≤ entry
  inside : entry < state.blocks
  tails : TailsUpTo state block entry

/-- The entry lies behind the table, and the walk from `block` takes it for a tail
of that chunk. The bound says that `n_blocks` is a `size_t`. -/
structure Overrun (config : Config) (state : MpStateMem) (block entry : Nat) : Prop where
  behind : state.blocks ≤ entry
  counted : entry < block + config.wordSpace
  tails : TailsUpTo state block entry

theorem lt_length_tailWalk (state : MpStateMem) (fuel entry offset : Nat) :
    offset < (state.tailWalk fuel entry).length ↔
      offset < fuel ∧ ∀ other < offset, state.atbGetKind (entry + other) = .tail := by
  induction fuel generalizing entry offset with
  | zero => simp [MpStateMem.tailWalk]
  | succ fuel ih =>
    by_cases isTail : state.atbGetKind entry = .tail
    · simp only [MpStateMem.tailWalk, isTail, if_true, List.length_cons]
      cases offset with
      | zero => simp
      | succ offset =>
        rw [Nat.add_lt_add_iff_right, ih, Nat.add_lt_add_iff_right]
        refine and_congr_right fun _ => ⟨fun tails other below => ?_, fun tails other below => ?_⟩
        · cases other with
          | zero => exact isTail
          | succ other =>
            rw [show entry + (other + 1) = entry + 1 + other by omega]
            exact tails other (by omega)
        · rw [show entry + 1 + other = entry + (other + 1) by omega]
          exact tails (other + 1) (by omega)
    · simp only [MpStateMem.tailWalk, isTail, if_false, List.length_cons, List.length_nil]
      constructor
      · intro first
        exact ⟨by omega, fun other below => absurd below (by omega)⟩
      · rintro ⟨_, tails⟩
        by_contra beyond
        exact isTail (tails 0 (by omega))

variable {state : MpStateMem} {block offset : Nat}

theorem lt_chainLength_iff :
    offset < state.chainLength config block ↔
      offset < config.wordSpace ∧ TailsUpTo state block (block + offset) := by
  rw [MpStateMem.chainLength, MpStateMem.chainReads, lt_length_tailWalk]
  refine and_congr_right fun _ => ⟨fun tails other above below => ?_, fun tails other below => ?_⟩
  · rw [show other = block + 1 + (other - block - 1) by omega]
    exact tails _ (by omega)
  · exact tails _ (by omega) (by omega)

theorem Layout.Valid.blocks_lt (valid : state.layout.Valid config) :
    state.blocks < config.wordSpace := by
  have bounded := valid.poolBounded
  rw [valid.poolLength] at bounded
  have scaled := Nat.le_mul_of_pos_right state.layout.blocks config.bytesPerBlock_pos
  have blocks : state.blocks = state.layout.blocks := rfl
  omega

theorem lt_chainLength_cases (valid : state.layout.Valid config) :
    offset < state.chainLength config block ↔
      InChunk state block (block + offset) ∨ Overrun config state block (block + offset) := by
  have few := valid.blocks_lt
  rw [lt_chainLength_iff]
  constructor
  · rintro ⟨counted, tails⟩
    by_cases inside : block + offset < state.blocks
    · exact Or.inl ⟨Nat.le_add_right _ _, inside, tails⟩
    · exact Or.inr ⟨Nat.not_lt.mp inside, Nat.add_lt_add_left counted _, tails⟩
  · rintro (chunk | beyond)
    · have := chunk.inside
      exact ⟨by omega, chunk.tails⟩
    · have := beyond.counted
      exact ⟨by omega, beyond.tails⟩

theorem InChunk.owner_eq {block entry : Nat} (chunk : InChunk state block entry)
    (notTail : state.atbGetKind block ≠ .tail) : owner state.atbGetKind entry = block := by
  obtain ⟨above, inside, tails⟩ := chunk
  induction entry with
  | zero =>
    obtain rfl : block = 0 := by omega
    rfl
  | succ entry ih =>
    by_cases first : block = entry + 1
    · subst first
      exact owner_of_ne_tail notTail
    · rw [owner_of_tail (tails _ (by omega) le_rfl)]
      exact ih (by omega) (by omega) fun other low high =>
        tails other low (by omega)

end MultiPython.Heap
