import MultiPython.Parse.Lexer

/-!
# The end of the file in the lexer

`next_char` ends every text with a newline, so that only a newline leads to the end of the file: what
reads a token stops before it, and what skips white space has passed a newline or a line continuation
there.
-/

namespace MultiPython.Parse

open Logic Str

/-- `mp_token_kind_t` of the tokens that are errors. -/
def TokenKind.isError : TokenKind → Bool
  | .invalid | .dedentMismatch | .lonelyStringOpen => true
  | _ => false

/-- The characters that are known end with a newline, if the file ends with them. -/
structure Cursor.Closed (lex : Cursor) : Prop where
  next : lex.chr1 = none → lex.chr0 = none ∨ lex.chr0 = some lineFeed
  after : lex.chr2 = none → lex.chr1 = none ∨ lex.chr1 = some lineFeed
  column : lex.chr0 = none → lex.column = 1
  positive : 1 ≤ lex.column

/-- The end of the file is not reached. -/
structure Cursor.Inside (lex : Cursor) : Prop extends lex.Closed where
  more : lex.chr0 ≠ none

variable {lex : Cursor} {c : Nat}

@[simp] theorem nextChar_chr0 : (nextChar lex).chr0 = lex.chr1 := rfl

theorem nextColumn_pos {column : Int} (positive : 1 ≤ column) (chr0 : Unichar) :
    1 ≤ nextColumn column chr0 := by
  unfold nextColumn
  split_ifs <;> omega

theorem refill_none {chr1 : Unichar} {rest : List Nat} (ends : (refill chr1 rest).1 = none) :
    chr1 = none := by
  unfold refill at ends
  split_ifs at ends
  exact ends

theorem endNewline_none {chr1 chr2 : Unichar} (ends : endNewline chr1 chr2 = none) :
    chr1 = none ∨ chr1 = some lineFeed := by
  unfold endNewline at ends
  split_ifs at ends with inserted
  by_contra other
  exact inserted ⟨ends, fun same => other (Or.inl same), fun same => other (Or.inr same)⟩

theorem nextChar_after (lex : Cursor) :
    (nextChar lex).chr2 = none →
      (nextChar lex).chr1 = none ∨ (nextChar lex).chr1 = some lineFeed :=
  endNewline_none

theorem Cursor.Closed.nextChar (closed : lex.Closed) (more : lex.chr0 ≠ none) :
    (nextChar lex).Closed := by
  constructor
  · intro ends
    exact closed.after (refill_none ends)
  · exact nextChar_after lex
  · intro ends
    have line := (closed.next ends).resolve_left more
    show nextColumn lex.column lex.chr0 = 1
    rw [nextColumn, if_pos line]
  · exact nextColumn_pos closed.positive _

theorem Cursor.Closed.inner (closed : lex.Closed) (here : lex.chr0 = some c) (inner : c ≠ lineFeed) :
    (Parse.nextChar lex).Inside := by
  have more : lex.chr0 ≠ none := by simp [here]
  refine ⟨closed.nextChar more, fun ends => ?_⟩
  rcases closed.next ends with none_ | line
  · exact more none_
  · rw [here] at line
    exact inner (Option.some.inj line)

theorem nextChar_left_le (lex : Cursor) :
    (nextChar lex).left + (if lex.chr0 = none then 0 else 1) ≤ lex.left := by
  obtain ⟨chr0, chr1, chr2, rest, line, column, joined⟩ := lex
  cases chr2 with
  | none =>
    cases rest with
    | nil => simp [nextChar, refill, endNewline, Cursor.left]
    | cons x rest =>
      simp only [nextChar, refill, endNewline, Cursor.left]
      simp
      split_ifs <;> omega
  | some c =>
    cases rest with
    | nil =>
      simp only [nextChar, refill, endNewline, Cursor.left]
      simp
      split_ifs <;> simp_all
    | cons x rest =>
      cases rest with
      | nil =>
        simp only [nextChar, refill, endNewline, Cursor.left]
        simp
        split_ifs <;> simp_all
      | cons y rest =>
        simp only [nextChar, refill, endNewline, Cursor.left]
        simp
        split_ifs <;> simp_all
        all_goals omega

theorem nextChar_left (more : lex.chr0 ≠ none) : (nextChar lex).left < lex.left := by
  have le := nextChar_left_le lex
  rw [if_neg more] at le
  omega

theorem startCursor_column (text : List Nat) : (startCursor text).column = 1 := rfl

theorem startCursor_inside (text : List Nat) : (startCursor text).Inside := by
  -- After two of the dummy characters, the third one is there.
  obtain ⟨second, dummy, same⟩ : ∃ lex : Cursor, lex.chr0 = some 0 ∧ startCursor text = nextChar lex ∧
      (lex.chr1 = none → lex.chr0 = some lineFeed) ∧
      (lex.chr2 = none → lex.chr1 = none ∨ lex.chr1 = some lineFeed) := by
    refine ⟨_, rfl, rfl, fun ends => ?_, nextChar_after _⟩
    rcases nextChar_after _ (refill_none ends) with none_ | line
    · cases none_
    · cases line
  obtain ⟨start, next, after⟩ := same
  have more : (startCursor text).chr0 ≠ none := by
    intro ends
    rw [start, nextChar_chr0] at ends
    rw [dummy] at next
    cases next ends
  refine ⟨⟨fun ends => ?_, ?_, fun ends => absurd ends more, startCursor_column text ▸ le_rfl⟩, more⟩
  · rw [start] at ends ⊢
    exact after (refill_none ends)
  · rw [start]
    exact nextChar_after second

/-! ## White space -/

theorem whileCursor_left_le {body : Cursor → Option Cursor}
    (fewer : ∀ {lex next}, body lex = some next → next.left < lex.left) (lex : Cursor) :
    (whileCursor body lex).left ≤ lex.left := by
  refine whileSome_invariant (fun reached : Cursor => reached.left ≤ lex.left) le_rfl ?_
  intro reached next before gives
  exact (fewer gives).le.trans before

theorem Cursor.Inside.skipComment (inside : lex.Inside) : (skipComment lex).Inside := by
  refine whileSome_invariant Cursor.Inside inside ?_
  intro lex next inside gives
  split_ifs at gives with stops
  cases gives
  obtain ⟨c, here⟩ := Option.ne_none_iff_exists'.mp inside.more
  refine inside.inner here ?_
  rintro rfl
  exact stops (Or.inr here)

theorem skipComment_left (lex : Cursor) : (skipComment lex).left ≤ lex.left := by
  refine whileCursor_left_le ?_ lex
  intro lex next gives
  split_ifs at gives with stops
  cases gives
  exact nextChar_left fun ends => stops (Or.inl ends)

/-- What a round of `skip_whitespace` passes. -/
inductive SkipRound (nestedBracketLevel : Int) (stopAtNewline had : Bool) (lex : Cursor) :
    Bool × Cursor → Prop where
  | newline (line : lex.chr0 = some lineFeed)
      (joins : ¬(stopAtNewline = true ∧ nestedBracketLevel = 0)) :
      SkipRound nestedBracketLevel stopAtNewline had lex (true, nextChar lex)
  | blank {c : Nat} (here : lex.chr0 = some c) (inner : c ≠ lineFeed) :
      SkipRound nestedBracketLevel stopAtNewline had lex (had, nextChar lex)
  | comment {c : Nat} (here : lex.chr0 = some c) (inner : c ≠ lineFeed) :
      SkipRound nestedBracketLevel stopAtNewline had lex (had, skipComment (nextChar lex))
  | continuation (here : lex.chr0 = some backslash) (line : lex.chr1 = some lineFeed) :
      SkipRound nestedBracketLevel stopAtNewline had lex
        (had, { nextChar (nextChar lex) with joined := true })

variable {nestedBracketLevel : Int} {stopAtNewline had : Bool}

theorem charIs_eq_true {test : Nat → Bool} {chr : Unichar} (holds : charIs test chr = true) :
    ∃ c, chr = some c ∧ test c = true := by
  cases chr with
  | none => cases holds
  | some c => exact ⟨c, rfl, holds⟩

variable {next : Bool × Cursor}

theorem skipBody_cases (gives : skipBody nestedBracketLevel stopAtNewline (had, lex) = some next) :
    SkipRound nestedBracketLevel stopAtNewline had lex next := by
  unfold skipBody at gives
  simp only at gives
  split_ifs at gives with ends line stops blank comment continuation
  · cases gives
    exact SkipRound.newline line stops
  · cases gives
    obtain ⟨c, here, -⟩ := charIs_eq_true blank
    exact SkipRound.blank here fun same => line (same ▸ here)
  · cases gives
    obtain ⟨c, here, -⟩ := charIs_eq_true comment
    exact SkipRound.comment here fun same => line (same ▸ here)
  · cases gives
    exact SkipRound.continuation continuation.1 continuation.2

theorem SkipRound.left (round : SkipRound nestedBracketLevel stopAtNewline had lex next) :
    next.2.left < lex.left := by
  cases round with
  | newline line joins => exact nextChar_left (by simp [line])
  | blank here inner => exact nextChar_left (by simp [here])
  | comment here inner =>
    exact (skipComment_left _).trans_lt (nextChar_left (by simp [here]))
  | continuation here line =>
    have first : (nextChar lex).left < lex.left := nextChar_left (by simp [here])
    have second : (nextChar (nextChar lex)).left < (nextChar lex).left :=
      nextChar_left (by simp [line])
    exact second.trans first

/-- What `skip_whitespace` has passed where it stops at the end of the file. -/
structure Skips (nestedBracketLevel : Int) (stopAtNewline : Bool) (start : Cursor)
    (state : Bool × Cursor) : Prop where
  closed : state.2.Closed
  ends : state.2.isEnd → start.isEnd ∨
    (state.1 = true ∧ ¬(stopAtNewline = true ∧ nestedBracketLevel = 0)) ∨ state.2.joined = true

theorem SkipRound.skips {start : Cursor}
    (before : Skips nestedBracketLevel stopAtNewline start (had, lex))
    (round : SkipRound nestedBracketLevel stopAtNewline had lex next) :
    Skips nestedBracketLevel stopAtNewline start next := by
  have closed := before.closed
  cases round with
  | newline line joins =>
    exact ⟨closed.nextChar (by simp [line]), fun _ => Or.inr (Or.inl ⟨rfl, joins⟩)⟩
  | blank here inner =>
    have inside := closed.inner here inner
    exact ⟨inside.toClosed, fun ends => absurd ends inside.more⟩
  | comment here inner =>
    have inside := (closed.inner here inner).skipComment
    exact ⟨inside.toClosed, fun ends => absurd ends inside.more⟩
  | continuation here line =>
    have first := closed.inner here (by decide)
    have second := first.nextChar first.more
    exact ⟨⟨second.next, second.after, second.column, second.positive⟩,
      fun _ => Or.inr (Or.inr rfl)⟩

theorem skipWhitespace_skips (closed : lex.Closed) :
    Skips nestedBracketLevel stopAtNewline lex
      (skipWhitespace lex nestedBracketLevel stopAtNewline) := by
  refine whileSome_invariant (Skips nestedBracketLevel stopAtNewline lex)
    ⟨closed, fun ends => Or.inl ends⟩ ?_
  rintro ⟨had, lex⟩ next before gives
  exact (skipBody_cases gives).skips before

/-- `skip_whitespace` has nothing to skip. -/
def Settled (nestedBracketLevel : Int) (lex : Cursor) : Prop :=
  ∀ had, skipBody nestedBracketLevel false (had, lex) = none

theorem settled_of_none (stops : skipBody nestedBracketLevel false (had, lex) = none) :
    Settled nestedBracketLevel lex := by
  intro other
  unfold skipBody at stops ⊢
  simp only at stops ⊢
  split_ifs at stops ⊢
  all_goals rfl

theorem skipWhitespace_settled (lex : Cursor) :
    Settled nestedBracketLevel (skipWhitespace lex nestedBracketLevel false).2 :=
  settled_of_none (whileSome_done fun gives => (skipBody_cases gives).left)

theorem Settled.skip (settled : Settled nestedBracketLevel lex) :
    skipWhitespace lex nestedBracketLevel false = (false, lex) :=
  whileSome_of_none (settled false)

theorem Settled.no_newline (settled : Settled nestedBracketLevel lex) :
    lex.chr0 ≠ some lineFeed := by
  intro line
  have stops := settled true
  simp [skipBody, line, Cursor.isEnd] at stops

theorem settled_of_isEnd (ends : lex.isEnd) : Settled nestedBracketLevel lex := by
  intro had
  simp [skipBody, ends]

end MultiPython.Parse
