import Mathlib.Data.List.Basic
import Mathlib.Order.Basic
import Mathlib.Tactic

/-!
# The offside rule

The layout of a text whose blocks are marked by how deep their lines are indented. `levels` are the
indentations that enclose a line, its own first. A line that is indented deeper than the one before
opens a block, any other line closes one block for each level that it leaves, and has to be at one of
the levels that enclose it.
-/

namespace MultiPython.Logic

open List

/-- A piece of a text: a new line with its indentation, or a token. -/
inductive LineItem (α τ : Type*) where
  | line (indent : α)
  | token (kind : τ)
deriving DecidableEq, Repr

/-- The tokens that mark the layout. -/
structure LayoutMarks (τ : Type*) where
  newline : τ
  indent : τ
  dedent : τ
  mismatch : τ

variable {α τ : Type*} [LinearOrder α] (marks : LayoutMarks τ)

/-- The tokens that lay out a piece of text after others, and the levels after it. -/
def layItem (laid : List τ × List α) : LineItem α τ → List τ × List α
  | .token kind => (laid.1 ++ [kind], laid.2)
  | .line indent =>
    if ∀ previous ∈ laid.2.head?, previous < indent then
      (laid.1 ++ [marks.newline, marks.indent], indent :: laid.2)
    else
      let kept := laid.2.filter (· ≤ indent)
      if indent ∈ laid.2 then
        let left := laid.2.countP (indent < ·)
        (laid.1 ++ marks.newline :: List.replicate left marks.dedent, kept)
      else (laid.1 ++ [marks.mismatch], kept)

/-- The layout of a text whose first line is at the bottom level. -/
def layout (bottom : α) (items : List (LineItem α τ)) : List τ × List α :=
  items.foldl (layItem marks) ([], [bottom])

/-- Levels that enclose each other, down to the bottom. -/
structure Nested (bottom : α) (levels : List α) : Prop where
  decreasing : levels.Pairwise (· > ·)
  bottom : levels.getLast? = some bottom

variable {marks} {bottom indent : α} {levels : List α} {laid : List τ × List α}

theorem layItem_deeper (deeper : ∀ previous ∈ laid.2.head?, previous < indent) :
    layItem marks laid (.line indent) =
      (laid.1 ++ [marks.newline, marks.indent], indent :: laid.2) := if_pos deeper

theorem layItem_level (notDeeper : ¬∀ previous ∈ laid.2.head?, previous < indent)
    (member : indent ∈ laid.2) :
    layItem marks laid (.line indent) =
      (laid.1 ++ marks.newline :: List.replicate (laid.2.countP (indent < ·)) marks.dedent,
        laid.2.filter (· ≤ indent)) := by
  rw [layItem, if_neg notDeeper, if_pos member]

theorem layItem_mismatch (notDeeper : ¬∀ previous ∈ laid.2.head?, previous < indent)
    (away : indent ∉ laid.2) :
    layItem marks laid (.line indent) =
      (laid.1 ++ [marks.mismatch], laid.2.filter (· ≤ indent)) := by
  rw [layItem, if_neg notDeeper, if_neg away]

theorem Nested.singleton : Nested bottom [bottom] :=
  ⟨pairwise_singleton _ _, rfl⟩

variable {item : LineItem α τ}

section

variable (nested : Nested bottom levels)

include nested

theorem Nested.ne_nil : levels ≠ [] := by
  rintro rfl
  cases nested.bottom

theorem Nested.bottom_mem : bottom ∈ levels :=
  List.mem_of_getLast? nested.bottom

theorem Nested.push (deeper : ∀ previous ∈ levels.head?, previous < indent) :
    Nested bottom (indent :: levels) := by
  cases levels with
  | nil => exact absurd rfl nested.ne_nil
  | cons top levels =>
    have above : top < indent := deeper top rfl
    constructor
    · rw [pairwise_cons]
      refine ⟨fun level member => ?_, nested.decreasing⟩
      rcases mem_cons.mp member with rfl | later
      · exact above
      · exact lt_trans (rel_of_pairwise_cons nested.decreasing later) above
    · rw [getLast?_cons_cons]
      exact nested.bottom

theorem Nested.leave (above : bottom ≤ indent) :
    Nested bottom (levels.filter (· ≤ indent)) := by
  constructor
  · exact nested.decreasing.sublist filter_sublist
  · obtain ⟨front, rfl⟩ := getLast?_eq_some_iff.mp nested.bottom
    simp [filter_append, above]

theorem Nested.step {kinds : List τ} (above : ∀ indent, item = .line indent → bottom ≤ indent) :
    Nested bottom (layItem marks (kinds, levels) item).2 := by
  cases item with
  | token kind => exact nested
  | line indent =>
    by_cases deeper : ∀ previous ∈ levels.head?, previous < indent
    · rw [layItem_deeper deeper]
      exact nested.push deeper
    · have left := nested.leave (above indent rfl)
      by_cases member : indent ∈ levels
      · rw [layItem_level deeper member]
        exact left
      · rw [layItem_mismatch deeper member]
        exact left

/-- At the bottom no other level is left. -/
theorem Nested.leave_bottom :
    levels.filter (· ≤ bottom) = [bottom] := by
  obtain ⟨front, rfl⟩ := getLast?_eq_some_iff.mp nested.bottom
  have deeper : ∀ level ∈ front, bottom < level := by
    intro level member
    exact (pairwise_append.mp nested.decreasing).2.2 level member bottom mem_cons_self
  rw [filter_append, filter_eq_nil_iff.mpr fun level member => by
    simpa using deeper level member]
  simp

end

/-- Every block that is open has been opened by one token and not been closed. -/
theorem layItem_balance [DecidableEq τ]
    (apart : marks.newline ≠ marks.indent ∧ marks.newline ≠ marks.dedent ∧
      marks.indent ≠ marks.dedent)
    (token : ∀ kind, item = .token kind → kind ≠ marks.indent ∧ kind ≠ marks.dedent)
    (balance : laid.1.count marks.indent + 1 = laid.1.count marks.dedent + laid.2.length)
    (fits : marks.mismatch ∉ (layItem marks laid item).1) :
    (layItem marks laid item).1.count marks.indent + 1 =
      (layItem marks laid item).1.count marks.dedent + (layItem marks laid item).2.length := by
  obtain ⟨notIndent, notDedent, differ⟩ := apart
  cases item with
  | token kind =>
    obtain ⟨first, second⟩ := token kind rfl
    simp [layItem, count_append, first, second, balance]
  | line indent =>
    by_cases deeper : ∀ previous ∈ laid.2.head?, previous < indent
    · rw [layItem_deeper deeper]
      simp [count_append, notIndent, notDedent, differ]
      omega
    · by_cases member : indent ∈ laid.2
      · have split : laid.2.length =
            laid.2.countP (indent < ·) + (laid.2.filter (· ≤ indent)).length := by
          rw [← countP_eq_length_filter, length_eq_countP_add_countP (indent < ·)]
          simp
        rw [layItem_level deeper member]
        simp only [count_append, count_cons, count_replicate]
        simp [notIndent, notDedent, differ.symm]
        omega
      · rw [layItem_mismatch deeper member] at fits
        simp at fits

/-! ## Whole texts -/

theorem layout_append (items : List (LineItem α τ)) (item : LineItem α τ) :
    layout marks bottom (items ++ [item]) = layItem marks (layout marks bottom items) item := by
  rw [layout, layout, foldl_append]
  rfl

theorem layItem_extends (laid : List τ × List α) (item : LineItem α τ) :
    laid.1 <+: (layItem marks laid item).1 := by
  cases item with
  | token kind => exact prefix_append _ _
  | line indent =>
    by_cases deeper : ∀ previous ∈ laid.2.head?, previous < indent
    · rw [layItem_deeper deeper]
      exact prefix_append _ _
    · by_cases member : indent ∈ laid.2
      · rw [layItem_level deeper member]
        exact prefix_append _ _
      · rw [layItem_mismatch deeper member]
        exact prefix_append _ _

variable {items : List (LineItem α τ)}

theorem layout_nested (above : ∀ indent, .line indent ∈ items → bottom ≤ indent) :
    Nested bottom (layout marks bottom items).2 := by
  induction items using reverseRecOn with
  | nil => exact Nested.singleton
  | append_singleton items item ih =>
    rw [layout_append]
    have before := ih fun indent member => above indent (by simp [member])
    exact before.step fun indent same => above indent (by simp [same])

theorem mem_layout_of_token {kind : τ} (member : .token kind ∈ items) :
    kind ∈ (layout marks bottom items).1 := by
  induction items using reverseRecOn with
  | nil => cases member
  | append_singleton items item ih =>
    rw [layout_append]
    rcases mem_append.mp member with earlier | last
    · exact (layItem_extends _ item).subset (ih earlier)
    · rw [← mem_singleton.mp last]
      exact mem_append_right _ mem_cons_self

/-- In a text whose lines are all at a level that encloses them, the blocks that are open are those
that have been opened and not been closed. -/
theorem layout_balance [DecidableEq τ]
    (apart : marks.newline ≠ marks.indent ∧ marks.newline ≠ marks.dedent ∧
      marks.indent ≠ marks.dedent)
    (tokens : ∀ kind, .token kind ∈ items → kind ≠ marks.indent ∧ kind ≠ marks.dedent)
    (fits : marks.mismatch ∉ (layout marks bottom items).1) :
    (layout marks bottom items).1.count marks.indent + 1 =
      (layout marks bottom items).1.count marks.dedent + (layout marks bottom items).2.length := by
  induction items using reverseRecOn with
  | nil => rfl
  | append_singleton items item ih =>
    rw [layout_append] at fits ⊢
    have before := ih (fun kind member => tokens kind (by simp [member]))
      fun mismatch => fits ((layItem_extends _ item).subset mismatch)
    exact layItem_balance apart (fun kind same => tokens kind (by simp [same])) before fits

end MultiPython.Logic
