import MultiPython.Logic.Offside
import MultiPython.Parse.Tokens

/-!
# Indentation

The logical lines and the tokens of a text, read without any indentation levels, and the tokens that
the lexer delivers for them.
-/

namespace MultiPython.Parse

open Logic List Option

/-- A piece of a source text. -/
abbrev SourceItem := LineItem Nat TokenKind

/-- The tokens of the layout. -/
def layoutMarks : LayoutMarks TokenKind where
  newline := .newline
  indent := .indent
  dedent := .dedent
  mismatch := .dedentMismatch

/-- Read the next piece of a text: a logical line begins where a newline outside of brackets has been
skipped. -/
def nextItem (optimiseValue : Nat) (chars : Cursor) (level : Int) :
    Option (SourceItem × Cursor × Int) :=
  let (hadPhysicalNewline, chars) := skipWhitespace chars level false
  if hadPhysicalNewline ∧ level = 0 then some (.line (chars.column - 1).toNat, chars, level)
  else if chars.isEnd then some (.token .endMarker, chars, level)
  else
    (readToken optimiseValue chars level).map fun tok =>
      (.token tok.kind, tok.lex, level + bracketDelta tok.kind)

/-- The pieces of a text up to a place, with the number of brackets that are open there. -/
inductive Reading (optimiseValue : Nat) (text : List Nat) :
    List SourceItem → Cursor → Int → Prop where
  | start : Reading optimiseValue text [] (startCursor text) 0
  | next {items chars level item after afterLevel}
      (before : Reading optimiseValue text items chars level)
      (reads : nextItem optimiseValue chars level = some (item, after, afterLevel)) :
      Reading optimiseValue text (items ++ [item]) after afterLevel

/-- The lexer after the tokens that it has delivered, up to the first error. -/
inductive LexerRun (wordBits optimiseValue : Nat) (text : List Nat) : List Lexer → Lexer → Prop where
  | new {lex} (starts : mpLexerNew wordBits optimiseValue text = some lex) :
      LexerRun wordBits optimiseValue text [] lex
  | next {earlier lex next} (before : LexerRun wordBits optimiseValue text earlier lex)
      (fine : lex.tokKind.isError = false)
      (steps : mpLexerToNext wordBits optimiseValue lex = some next) :
      LexerRun wordBits optimiseValue text (earlier ++ [lex]) next

/-- The tokens that are still to be emitted. -/
def Lexer.pending (lex : Lexer) : List TokenKind :=
  if lex.tokKind = .dedentMismatch then []
  else List.replicate (-lex.emitDent).toNat .dedent ++ List.replicate lex.emitDent.toNat .indent

/-- If a logical line begins next, then it is indented by less than 65536 columns. -/
def Lexer.Narrow (lex : Lexer) : Prop :=
  let skipped := skipWhitespace lex.chars lex.nestedBracketLevel false
  skipped.1 = true → lex.nestedBracketLevel = 0 → skipped.2.column - 1 < 2 ^ 16

instance (lex : Lexer) : Decidable lex.Narrow := inferInstanceAs (Decidable (_ → _ → _))

/-- The column in which the first token of a text stands. -/
def firstColumn (text : List Nat) : Int := (skipWhitespace (startCursor text) 0 false).2.column

/-- The tokens that have been delivered with the lexer in a state. -/
def deliveredKinds (earlier : List Lexer) (lex : Lexer) : List TokenKind :=
  (earlier ++ [lex]).map Lexer.tokKind

/-- What the lexer should have delivered. -/
structure IndentationMeets (optimiseValue : Nat) (text : List Nat) (earlier : List Lexer)
    (lex : Lexer) : Prop where
  nested : Nested 0 lex.indentLevel
  laid : ∃ items, Reading optimiseValue text items lex.chars lex.nestedBracketLevel ∧
    (deliveredKinds earlier lex ++ lex.pending, lex.indentLevel) = layout layoutMarks 0 items
  balanced : lex.tokKind = .endMarker → lex.chars.joined = false →
    ((deliveredKinds earlier lex).map bracketDelta).sum = 0 →
    (deliveredKinds earlier lex).count .indent = (deliveredKinds earlier lex).count .dedent

variable {wordBits optimiseValue : Nat} {text : List Nat} {items : List SourceItem}
  {chars after : Cursor} {level afterLevel : Int} {item : SourceItem}

/-! ## Reading a text -/

/-- The first piece of a text, or one after another. -/
inductive NextItem (optimiseValue : Nat) (chars : Cursor) (level : Int) :
    SourceItem → Cursor → Int → Prop where
  | line {after : Cursor} (skips : skipWhitespace chars level false = (true, after)) (outside : level = 0) :
      NextItem optimiseValue chars level (.line (after.column - 1).toNat) after level
  | ended {had : Bool} {after : Cursor} (skips : skipWhitespace chars level false = (had, after))
      (noLine : ¬(had = true ∧ level = 0)) (ends : after.isEnd) :
      NextItem optimiseValue chars level (.token .endMarker) after level
  | token {had : Bool} {between : Cursor} {tok : Scanned}
      (skips : skipWhitespace chars level false = (had, between))
      (noLine : ¬(had = true ∧ level = 0)) (more : ¬between.isEnd)
      (reads : readToken optimiseValue between level = some tok) :
      NextItem optimiseValue chars level (.token tok.kind) tok.lex (level + bracketDelta tok.kind)

theorem nextItem_cases (reads : nextItem optimiseValue chars level = some (item, after, afterLevel)) :
    NextItem optimiseValue chars level item after afterLevel := by
  unfold nextItem at reads
  cases skips : skipWhitespace chars level false with
  | mk had between =>
    simp only [skips] at reads
    split_ifs at reads with line ends
    · obtain ⟨rfl, outside⟩ := line
      cases reads
      exact NextItem.line skips outside
    · cases reads
      exact NextItem.ended skips line ends
    · obtain ⟨tok, token, same⟩ := map_eq_some_iff.mp reads
      cases same
      exact NextItem.token skips line ends token

/-- What is known of a text up to a place that is reached without an error. -/
structure Sound (items : List SourceItem) (chars : Cursor) (level : Int) : Prop where
  closed : chars.Closed
  tokens : ∀ kind, .token kind ∈ items → kind ≠ .indent ∧ kind ≠ .dedent
  bottom : (∀ kind, .token kind ∈ items → kind.isError = false) → chars.isEnd →
    chars.joined = false → level = 0 → (layout layoutMarks 0 items).2 = [0]

theorem layout_nested_zero (items : List SourceItem) : Nested 0 (layout layoutMarks 0 items).2 :=
  layout_nested fun indent _ => Nat.zero_le indent

theorem NextItem.sound (next : NextItem optimiseValue chars level item after afterLevel)
    (before : Sound items chars level) : Sound (items ++ [item]) after afterLevel := by
  have closed := before.closed
  have skipped := @skipWhitespace_skips chars level false closed
  have settled := @skipWhitespace_settled level chars
  cases next with
  | line skips outside =>
    rw [skips] at skipped
    refine ⟨skipped.closed, ?_, ?_⟩
    · intro kind member
      exact before.tokens kind (by simpa using member)
    · intro _ ends _ _
      rw [layout_append, skipped.closed.column ends]
      have nested := layout_nested_zero items
      have notDeeper : ¬∀ previous ∈ (layout layoutMarks 0 items).2.head?,
          previous < ((1 : Int) - 1).toNat := by
        obtain ⟨top, levels, cons⟩ := exists_cons_of_ne_nil nested.ne_nil
        intro deeper
        exact absurd (deeper top (by rw [cons]; rfl)) (Nat.not_lt_zero top)
      rw [layItem_level notDeeper nested.bottom_mem]
      exact nested.leave_bottom
  | ended skips noLine ends =>
    rw [skips] at skipped
    refine ⟨skipped.closed, ?_, ?_⟩
    · intro kind member
      rcases mem_append.mp member with earlier | last
      · exact before.tokens kind earlier
      · cases mem_singleton.mp last
        simp
    · intro fine _ apart outside
      have atEnd : chars.isEnd := by
        rcases skipped.ends ends with atEnd | ⟨had, -⟩ | joined
        · exact atEnd
        · exact absurd ⟨had, outside⟩ noLine
        · rw [show after.joined = true from joined] at apart
          cases apart
      rw [(settled_of_isEnd atEnd).skip] at skips
      cases skips
      rw [layout_append]
      exact before.bottom (fun kind member => fine kind (by simp [member])) atEnd apart outside
  | token skips noLine more reads =>
    rw [skips] at skipped settled
    have token := readToken_reads ⟨skipped.closed, more⟩ settled.no_newline reads
    refine ⟨token.closed, ?_, ?_⟩
    · intro kind member
      rcases mem_append.mp member with earlier | last
      · exact before.tokens kind earlier
      · cases mem_singleton.mp last
        have kinds := token.kind
        simp only [mem_cons, not_or] at kinds
        exact ⟨kinds.2.2.2.1, kinds.2.2.2.2.1⟩
    · intro fine ends apart outside
      exfalso
      rcases token.ends (fine _ (by simp)) ends with joined | ⟨inBrackets, noDelta⟩
      · rw [joined] at apart
        cases apart
      · rw [noDelta] at outside
        exact inBrackets (by omega)

theorem Reading.sound (reading : Reading optimiseValue text items chars level) :
    Sound items chars level := by
  induction reading with
  | start =>
    have inside := startCursor_inside text
    refine ⟨inside.toClosed, ?_, fun _ ends => absurd ends inside.more⟩
    intro kind member
    cases member
  | next before reads ih =>
    exact (nextItem_cases reads).sound ih

/-! ## The branch for a new logical line -/

theorem popLevels_eq {levels : List Nat} (decreasing : levels.Pairwise (· > ·)) (numSpaces : Nat)
    (emitDent : Int) : popLevels numSpaces levels emitDent =
      (levels.filter (· ≤ numSpaces), emitDent - levels.countP (numSpaces < ·)) := by
  induction levels generalizing emitDent with
  | nil => simp [popLevels]
  | cons top levels ih =>
    by_cases leaves : numSpaces < top
    · rw [popLevels, if_pos leaves, ih (List.Pairwise.of_cons decreasing),
        filter_cons_of_neg (by simpa using leaves),
        countP_cons_of_pos (by simpa using leaves)]
      push_cast
      rw [Int.sub_sub, Int.add_comm]
    · have all : ∀ level ∈ top :: levels, level ≤ numSpaces := by
        intro level member
        rcases mem_cons.mp member with rfl | later
        · omega
        · have below := rel_of_pairwise_cons decreasing later
          omega
      rw [popLevels, if_neg leaves, filter_eq_self.mpr (by simpa using all),
        countP_eq_zero.mpr (by simpa using all)]
      simp

theorem headD_filter_iff {levels : List Nat} (nested : Nested 0 levels) (numSpaces : Nat) :
    numSpaces = (levels.filter (· ≤ numSpaces)).headD 0 ↔ numSpaces ∈ levels := by
  have kept := nested.leave (Nat.zero_le numSpaces)
  obtain ⟨top, rest, cons⟩ := exists_cons_of_ne_nil kept.ne_nil
  have topKept : top ∈ levels.filter (· ≤ numSpaces) := by simp [cons]
  obtain ⟨topMem, topLe⟩ := mem_filter.mp topKept
  rw [cons]
  constructor
  · rintro rfl
    exact topMem
  · intro member
    have inKept : numSpaces ∈ top :: rest := cons ▸ mem_filter.mpr ⟨member, by simp⟩
    rcases mem_cons.mp inKept with same | later
    · exact same
    · have below := rel_of_pairwise_cons (cons ▸ kept.decreasing) later
      have le : top ≤ numSpaces := by simpa using topLe
      exact absurd below (by omega)

@[simp] theorem newLine_chars (lex : Lexer) : (newLine wordBits lex).chars = lex.chars := by
  unfold newLine
  simp only
  split_ifs <;> rfl

@[simp] theorem newLine_level (lex : Lexer) :
    (newLine wordBits lex).nestedBracketLevel = lex.nestedBracketLevel := by
  unfold newLine
  simp only
  split_ifs <;> rfl

theorem numSpaces_eq (wide : 16 ≤ wordBits) {column : Int} (positive : 1 ≤ column)
    (narrow : column - 1 < 2 ^ 16) :
    ((column - 1) % 2 ^ wordBits).toNat = (column - 1).toNat := by
  have word : (2 : Int) ^ 16 ≤ 2 ^ wordBits := pow_le_pow_right₀ (by norm_num) wide
  rw [Int.emod_eq_of_lt (by omega) (by omega)]

/-- A new logical line delivers and leaves to emit what the layout of the line is. -/
theorem newLine_spec {lex : Lexer} (wide : 16 ≤ wordBits) (nested : Nested 0 lex.indentLevel)
    (emitted : lex.emitDent = 0) (positive : 1 ≤ lex.chars.column)
    (narrow : lex.chars.column - 1 < 2 ^ 16) (kinds : List TokenKind) :
    (kinds ++ [(newLine wordBits lex).tokKind] ++ (newLine wordBits lex).pending,
        (newLine wordBits lex).indentLevel) =
      layItem layoutMarks (kinds, lex.indentLevel) (.line (lex.chars.column - 1).toNat) := by
  have spaces := numSpaces_eq wide positive narrow
  have small : (lex.chars.column - 1).toNat < 2 ^ 16 := by omega
  obtain ⟨top, rest, cons⟩ := exists_cons_of_ne_nil nested.ne_nil
  have innermost : lex.indentTop = top := by rw [Lexer.indentTop, cons]; rfl
  unfold newLine
  rw [spaces, innermost]
  generalize (lex.chars.column - 1).toNat = numSpaces at small ⊢
  have deeperIff : (∀ previous ∈ lex.indentLevel.head?, previous < numSpaces) ↔ top < numSpaces := by
    rw [cons]
    simp
  have popped := popLevels_eq nested.decreasing numSpaces lex.emitDent
  have here := headD_filter_iff nested numSpaces
  by_cases deeper : top < numSpaces
  · rw [layItem_deeper (deeperIff.mpr deeper)]
    simp only [if_neg (Nat.ne_of_gt deeper), if_pos deeper, emitted, Nat.mod_eq_of_lt small]
    simp [Lexer.pending, layoutMarks]
  have notDeeper := mt deeperIff.mp deeper
  by_cases same : numSpaces = top
  · have member : numSpaces ∈ lex.indentLevel := by
      rw [cons, same]
      exact mem_cons_self
    have all : ∀ level ∈ lex.indentLevel, level ≤ numSpaces := by
      rw [cons, same]
      intro level member
      rcases mem_cons.mp member with rfl | later
      · exact le_rfl
      · exact (rel_of_pairwise_cons (cons ▸ nested.decreasing) later).le
    rw [layItem_level notDeeper member, filter_eq_self.mpr (by simpa using all),
      countP_eq_zero.mpr (by simpa using all)]
    simp [same, Lexer.pending, layoutMarks, emitted]
  · rw [emitted, Int.zero_sub] at popped
    simp only [if_neg same, if_neg deeper, emitted, popped]
    by_cases member : numSpaces ∈ lex.indentLevel
    · rw [layItem_level notDeeper member]
      simp only [if_pos (here.mpr member)]
      simp [Lexer.pending, layoutMarks]
    · rw [layItem_mismatch notDeeper member]
      simp only [if_neg (mt here.mp member)]
      simp [Lexer.pending, layoutMarks]

/-! ## The tokens that are delivered -/

/-- What has been delivered and is pending is the layout of the text so far. -/
structure Laid (optimiseValue : Nat) (text : List Nat) (kinds : List TokenKind) (lex : Lexer) :
    Prop where
  reading : ∃ items, Reading optimiseValue text items lex.chars lex.nestedBracketLevel ∧
    (kinds ++ lex.pending, lex.indentLevel) = layout layoutMarks 0 items
  settled : lex.emitDent ≠ 0 → Settled lex.nestedBracketLevel lex.chars
  level : lex.nestedBracketLevel = (kinds.map bracketDelta).sum
  ended : lex.tokKind = .endMarker → lex.emitDent = 0 ∧ lex.chars.isEnd

variable {kinds : List TokenKind} {lex next : Lexer}

theorem pending_of_zero (emitted : lex.emitDent = 0) : lex.pending = [] := by
  simp [Lexer.pending, emitted]

theorem Laid.nested (laid : Laid optimiseValue text kinds lex) : Nested 0 lex.indentLevel := by
  obtain ⟨items, -, same⟩ := laid.reading
  have levels : lex.indentLevel = (layout layoutMarks 0 items).2 := congrArg Prod.snd same
  rw [levels]
  exact layout_nested_zero items

theorem Laid.closed (laid : Laid optimiseValue text kinds lex) : lex.chars.Closed := by
  obtain ⟨items, reading, -⟩ := laid.reading
  exact reading.sound.closed

theorem Laid.emit (laid : Laid optimiseValue text kinds lex) {kind : TokenKind}
    (sameChars : next.chars = lex.chars)
    (sameLevel : next.nestedBracketLevel = lex.nestedBracketLevel)
    (sameLevels : next.indentLevel = lex.indentLevel) (emitting : lex.emitDent ≠ 0)
    (first : lex.pending = kind :: next.pending) (noDelta : bracketDelta kind = 0)
    (apart : next.tokKind ≠ .endMarker) : Laid optimiseValue text (kinds ++ [kind]) next := by
  obtain ⟨items, reading, same⟩ := laid.reading
  refine ⟨⟨items, ?_, ?_⟩, fun _ => ?_, ?_, fun ended => absurd ended apart⟩
  · rw [sameChars, sameLevel]
    exact reading
  · rw [← same, sameLevels, first]
    simp
  · rw [sameChars, sameLevel]
    exact laid.settled emitting
  · rw [sameLevel, laid.level]
    simp [noDelta]

variable {had : Bool}

theorem nextItem_line (skips : skipWhitespace chars level false = (had, after))
    (line : had = true ∧ level = 0) : nextItem optimiseValue chars level =
      some (.line (after.column - 1).toNat, after, level) := by
  simp only [nextItem, skips, if_pos line]

theorem nextItem_ended (skips : skipWhitespace chars level false = (had, after))
    (noLine : ¬(had = true ∧ level = 0)) (ends : after.isEnd) :
    nextItem optimiseValue chars level = some (.token .endMarker, after, level) := by
  simp only [nextItem, skips, if_neg noLine, if_pos ends]

theorem nextItem_token {tok : Scanned} (skips : skipWhitespace chars level false = (had, after))
    (noLine : ¬(had = true ∧ level = 0)) (more : ¬after.isEnd)
    (reads : readToken optimiseValue after level = some tok) :
    nextItem optimiseValue chars level =
      some (.token tok.kind, tok.lex, level + bracketDelta tok.kind) := by
  simp only [nextItem, skips, if_neg noLine, if_neg more, reads, map_some]

theorem Laid.read (laid : Laid optimiseValue text kinds lex) (item : SourceItem) (emitted : lex.emitDent = 0)
    (reads : nextItem optimiseValue lex.chars lex.nestedBracketLevel =
      some (item, next.chars, next.nestedBracketLevel))
    (lays : (kinds ++ [next.tokKind] ++ next.pending, next.indentLevel) =
      layItem layoutMarks (kinds, lex.indentLevel) item)
    (settled : next.emitDent ≠ 0 → Settled next.nestedBracketLevel next.chars)
    (level : next.nestedBracketLevel = lex.nestedBracketLevel + bracketDelta next.tokKind)
    (ended : next.tokKind = .endMarker → next.emitDent = 0 ∧ next.chars.isEnd) :
    Laid optimiseValue text (kinds ++ [next.tokKind]) next := by
  obtain ⟨items, reading, same⟩ := laid.reading
  refine ⟨⟨items ++ [item], Reading.next reading reads, ?_⟩, settled, ?_, ended⟩
  · rw [pending_of_zero emitted, append_nil] at same
    rw [layout_append, ← same]
    exact lays
  · rw [level, laid.level]
    simp

theorem pending_dedent (fine : lex.tokKind.isError = false) (negative : lex.emitDent < 0)
    (kind : next.tokKind = .dedent) (emits : next.emitDent = lex.emitDent + 1) :
    lex.pending = .dedent :: next.pending := by
  have apart : lex.tokKind ≠ .dedentMismatch := by
    intro same
    rw [same] at fine
    cases fine
  obtain ⟨count, isCount⟩ : ∃ count : Nat, lex.emitDent = -(count + 1 : Nat) :=
    ⟨(-lex.emitDent - 1).toNat, by omega⟩
  have after : next.emitDent = -(count : Nat) := by rw [emits, isCount]; push_cast; ring
  rw [Lexer.pending, if_neg apart, Lexer.pending, if_neg (by simp [kind]), after, isCount]
  simp [replicate_succ]

theorem pending_indent (fine : lex.tokKind.isError = false) (positive : 0 < lex.emitDent)
    (kind : next.tokKind = .indent) (emits : next.emitDent = lex.emitDent - 1) :
    lex.pending = .indent :: next.pending := by
  have apart : lex.tokKind ≠ .dedentMismatch := by
    intro same
    rw [same] at fine
    cases fine
  obtain ⟨count, isCount⟩ : ∃ count : Nat, lex.emitDent = (count + 1 : Nat) :=
    ⟨(lex.emitDent - 1).toNat, by omega⟩
  have after : next.emitDent = (count : Nat) := by rw [emits, isCount]; push_cast; ring
  rw [Lexer.pending, if_neg apart, Lexer.pending, if_neg (by simp [kind]), after, isCount]
  simp [replicate_succ]

theorem newLine_kind (lex : Lexer) :
    (newLine wordBits lex).tokKind = .newline ∨ (newLine wordBits lex).tokKind = .dedentMismatch := by
  unfold newLine
  simp only
  split_ifs <;> simp

/-- Every call of `mp_lexer_to_next` delivers the layout of the text. -/
theorem Laid.step (wide : 16 ≤ wordBits) (laid : Laid optimiseValue text kinds lex)
    (fine : lex.tokKind.isError = false) (narrow : lex.Narrow)
    (steps : mpLexerToNext wordBits optimiseValue lex = some next) :
    Laid optimiseValue text (kinds ++ [next.tokKind]) next := by
  have skipped := @skipWhitespace_skips lex.chars lex.nestedBracketLevel false laid.closed
  have settled := @skipWhitespace_settled lex.nestedBracketLevel lex.chars
  cases skips : skipWhitespace lex.chars lex.nestedBracketLevel false with
  | mk had chars =>
    rw [skips] at skipped settled
    simp only [mpLexerToNext, skips] at steps
    by_cases negative : lex.emitDent < 0
    · rw [if_pos negative] at steps
      cases steps
      rw [(laid.settled (by omega)).skip] at skips
      cases skips
      exact laid.emit rfl rfl rfl (by omega) (pending_dedent fine negative rfl rfl) rfl (by simp)
    by_cases positive : 0 < lex.emitDent
    · rw [if_neg negative, if_pos positive] at steps
      cases steps
      rw [(laid.settled (by omega)).skip] at skips
      cases skips
      exact laid.emit rfl rfl rfl (by omega) (pending_indent fine positive rfl rfl) rfl (by simp)
    have emitted : lex.emitDent = 0 := by omega
    rw [if_neg negative, if_neg positive] at steps
    by_cases line : had = true ∧ lex.nestedBracketLevel = 0
    · rw [if_pos line] at steps
      cases steps
      have within : chars.column - 1 < 2 ^ 16 := by
        unfold Lexer.Narrow at narrow
        rw [skips] at narrow
        exact narrow line.1 line.2
      refine laid.read (.line (chars.column - 1).toNat) emitted ?_ ?_ ?_ ?_ ?_
      · rw [newLine_chars, newLine_level]
        exact nextItem_line skips line
      · apply newLine_spec wide
        · exact laid.nested
        · exact emitted
        · exact skipped.closed.positive
        · exact within
      · intro _
        simpa using settled
      · rcases @newLine_kind wordBits _ with kind | kind
        · rw [kind]
          simp [bracketDelta]
        · rw [kind]
          simp [bracketDelta]
      · intro ended
        rcases @newLine_kind wordBits _ with kind | kind
        · rw [kind] at ended
          cases ended
        · rw [kind] at ended
          cases ended
    by_cases ends : chars.isEnd
    · rw [if_neg line, if_pos ends] at steps
      cases steps
      refine laid.read (.token .endMarker) emitted ?_ ?_ ?_ ?_ ?_
      · exact nextItem_ended skips line ends
      · simp [layItem, Lexer.pending, emitted]
      · intro emitting
        exact absurd emitted emitting
      · simp [bracketDelta]
      · exact fun _ => ⟨emitted, ends⟩
    · rw [if_neg line, if_neg ends] at steps
      obtain ⟨tok, reads, rfl⟩ := map_eq_some_iff.mp steps
      have token := readToken_reads ⟨skipped.closed, ends⟩ settled.no_newline reads
      refine laid.read (.token tok.kind) emitted ?_ ?_ ?_ ?_ ?_
      · exact nextItem_token skips line ends reads
      · simp [layItem, Lexer.pending, emitted]
      · intro emitting
        exact absurd emitted emitting
      · rfl
      · intro ended
        exact absurd ended fun same => token.kind (by
          rw [show tok.kind = .endMarker from same]
          exact mem_cons_self)

theorem mpLexerToNext_tokColumn
    (steps : mpLexerToNext wordBits optimiseValue lex = some next) :
    next.tokColumn =
      ((skipWhitespace lex.chars lex.nestedBracketLevel false).2.column % 2 ^ wordBits).toNat := by
  cases skips : skipWhitespace lex.chars lex.nestedBracketLevel false with
  | mk had chars =>
    simp only [mpLexerToNext, skips] at steps
    split_ifs at steps with negative positive line ends
    · cases steps
      rfl
    · cases steps
      rfl
    · cases steps
      unfold newLine
      simp only
      split_ifs <;> rfl
    · cases steps
      rfl
    · obtain ⟨tok, reads, rfl⟩ := map_eq_some_iff.mp steps
      rfl

theorem laid_start (text : List Nat) : Laid optimiseValue text [] (startLexer text) :=
  ⟨⟨[], Reading.start, rfl⟩, fun emitting => absurd rfl emitting, rfl, fun ended => by cases ended⟩

theorem laid_new (wide : 16 ≤ wordBits) (first : firstColumn text = 1)
    (starts : mpLexerNew wordBits optimiseValue text = some lex) :
    Laid optimiseValue text [lex.tokKind] lex := by
  obtain ⟨token, steps, same⟩ := map_eq_some_iff.mp starts
  have column : token.tokColumn = 1 := by
    have word : (1 : Int) < 2 ^ wordBits :=
      one_lt_pow₀ (by norm_num) (by omega)
    rw [mpLexerToNext_tokColumn steps, show (skipWhitespace (startLexer text).chars
      (startLexer text).nestedBracketLevel false).2.column = 1 from first,
      Int.emod_eq_of_lt (by norm_num) word]
    rfl
  rw [if_neg (by simp [column])] at same
  subst same
  refine (laid_start text).step wide rfl (fun _ _ => ?_) steps
  show firstColumn text - 1 < 2 ^ 16
  rw [first]
  norm_num

variable {earlier : List Lexer}

theorem LexerRun.laid (wide : 16 ≤ wordBits) (first : firstColumn text = 1)
    (run : LexerRun wordBits optimiseValue text earlier lex)
    (narrow : ∀ before ∈ earlier, before.Narrow) :
    Laid optimiseValue text (deliveredKinds earlier lex) lex := by
  induction run with
  | new starts => exact laid_new wide first starts
  | @next earlier lex next before fine steps ih =>
    have laid := ih fun state member => narrow state (by simp [member])
    have after := laid.step wide fine (narrow lex (by simp)) steps
    rw [deliveredKinds, map_append]
    exact after

theorem LexerRun.fine (run : LexerRun wordBits optimiseValue text earlier lex) :
    ∀ before ∈ earlier, before.tokKind.isError = false := by
  induction run with
  | new starts =>
    intro before member
    cases member
  | next before fine steps ih =>
    intro state member
    rcases mem_append.mp member with sooner | last
    · exact ih state sooner
    · rw [mem_singleton.mp last]
      exact fine

theorem layoutMarks_apart : layoutMarks.newline ≠ layoutMarks.indent ∧
    layoutMarks.newline ≠ layoutMarks.dedent ∧ layoutMarks.indent ≠ layoutMarks.dedent := by
  simp [layoutMarks]

theorem Laid.balanced (laid : Laid optimiseValue text kinds lex) (ended : lex.tokKind = .endMarker)
    (fine : ∀ kind ∈ kinds, kind.isError = false) (notJoined : lex.chars.joined = false)
    (brackets : (kinds.map bracketDelta).sum = 0) : kinds.count .indent = kinds.count .dedent := by
  obtain ⟨items, reading, same⟩ := laid.reading
  obtain ⟨emitted, atEnd⟩ := laid.ended ended
  rw [pending_of_zero emitted, append_nil] at same
  have isKinds : (layout layoutMarks 0 items).1 = kinds := by rw [← same]
  have sound := reading.sound
  have fits : layoutMarks.mismatch ∉ (layout layoutMarks 0 items).1 := by
    rw [isKinds]
    intro mismatch
    exact absurd (fine _ mismatch) (by simp [layoutMarks, TokenKind.isError])
  have balance := layout_balance layoutMarks_apart sound.tokens fits
  have bottom := sound.bottom (fun kind member => fine kind (isKinds ▸ mem_layout_of_token member))
    atEnd notJoined (laid.level.trans brackets)
  rw [bottom, isKinds] at balance
  simpa [layoutMarks] using balance

/-- Along every run whose logical lines are indented by less than 65536 columns, the lexer delivers
the layout of the text, and its levels are those that enclose the line. -/
theorem lexer_indents {earlier : List Lexer} (wide : 16 ≤ wordBits) (first : firstColumn text = 1)
    (run : LexerRun wordBits optimiseValue text earlier lex)
    (narrow : ∀ before ∈ earlier, before.Narrow) :
    IndentationMeets optimiseValue text earlier lex := by
  have laid := run.laid wide first narrow
  refine ⟨laid.nested, laid.reading, fun ended notJoined brackets => ?_⟩
  refine laid.balanced ended ?_ notJoined brackets
  intro kind member
  obtain ⟨state, inRun, rfl⟩ := List.mem_map.mp member
  rcases mem_append.mp inRun with sooner | last
  · exact run.fine state sooner
  · rw [mem_singleton.mp last, ended]
    rfl

/-- The first tokens of a text. -/
def lexerStates (wordBits optimiseValue : Nat) (text : List Nat) : Nat → Option (List Lexer × Lexer)
  | 0 => (mpLexerNew wordBits optimiseValue text).map fun lex => ([], lex)
  | count + 1 =>
    match lexerStates wordBits optimiseValue text count with
    | none => none
    | some (earlier, lex) =>
      if lex.tokKind.isError then none
      else (mpLexerToNext wordBits optimiseValue lex).map fun next => (earlier ++ [lex], next)

theorem lexerStates_run {wordBits optimiseValue count : Nat} {text : List Nat} {lex : Lexer}
    (states : lexerStates wordBits optimiseValue text count = some (earlier, lex)) :
    LexerRun wordBits optimiseValue text earlier lex := by
  induction count generalizing earlier lex with
  | zero =>
    obtain ⟨first, starts, same⟩ := map_eq_some_iff.mp states
    cases same
    exact .new starts
  | succ count ih =>
    rw [lexerStates] at states
    split at states
    · cases states
    · rename_i before last comes
      split_ifs at states with fine
      obtain ⟨next, steps, same⟩ := map_eq_some_iff.mp states
      cases same
      exact .next (ih comes) (by simpa using fine) steps

/-- A text with two blocks, one inside of the other. -/
def twoBlocks : List Nat := [97, 10, 32, 98, 10, 32, 32, 99]

theorem lexer_indents_twoBlocks : ∃ earlier lex,
    lexerStates 32 0 twoBlocks 10 = some (earlier, lex) ∧ lex.tokKind = .endMarker ∧
      IndentationMeets 0 twoBlocks earlier lex := by
  obtain ⟨⟨earlier, lex⟩, states⟩ := isSome_iff_exists.mp
    (show (lexerStates 32 0 twoBlocks 10).isSome by decide +kernel)
  have checked : ∀ state ∈ lexerStates 32 0 twoBlocks 10,
      (∀ before ∈ state.1, before.Narrow) ∧ state.2.tokKind = .endMarker := by decide +kernel
  obtain ⟨narrow, ended⟩ := checked _ states
  exact ⟨earlier, lex, states, ended, lexer_indents (by decide) (by decide)
    (lexerStates_run states) narrow⟩

/-- A text whose second line is indented by some columns. -/
def indentedText (count : Nat) : List Nat := [97, 10] ++ List.replicate (count + 3) 32 ++ [98]

/-- The cursor in front of the last spaces of a line that is indented. -/
def spacesCursor (count : Nat) (column : Int) : Cursor :=
  { chr0 := some 32, chr1 := some 32, chr2 := some 32, rest := List.replicate count 32 ++ [98],
    line := 2, column := column, joined := false }

/-- The cursor behind the spaces. -/
def letterCursor (column : Int) : Cursor :=
  { chr0 := some 98, chr1 := some 10, chr2 := none, rest := [], line := 2, column := column,
    joined := false }

/-- The lexer at the first token of the text. -/
def letterLexer (count : Nat) : Lexer :=
  { startLexer (indentedText count) with
    chars := nextChar (startCursor (indentedText count))
    tokLine := 1
    tokColumn := 1
    tokKind := .name
    vstr := [97] }

theorem skipWhitespace_spaces (count : Nat) (column : Int) :
    whileSome (skipBody 0 false) (fun state => state.2.left) (true, spacesCursor count column) =
      (true, letterCursor (column + (count + 3 : Nat))) := by
  have fewer := fun {state next : Bool × Cursor} (gives : skipBody 0 false state = some next) =>
    (skipBody_cases gives).left
  induction count generalizing column with
  | zero =>
    have last : nextChar (nextChar (nextChar (spacesCursor 0 column))) =
        letterCursor (column + 1 + 1 + 1) := rfl
    rw [whileSome_of_some fewer rfl, whileSome_of_some fewer rfl, whileSome_of_some fewer rfl,
      whileSome_of_none rfl, last]
    congr 2
    omega
  | succ count ih =>
    have round : skipBody 0 false (true, spacesCursor (count + 1) column) =
        some (true, spacesCursor count (column + 1)) := rfl
    rw [whileSome_of_some fewer round, ih]
    congr 2
    omega

theorem mpLexerNew_indented (count : Nat) :
    mpLexerNew 32 0 (indentedText count) = some (letterLexer count) := by
  have settled : skipWhitespace (startCursor (indentedText count)) 0 false =
      (false, startCursor (indentedText count)) := whileSome_of_none rfl
  have name : readToken 0 (startCursor (indentedText count)) 0 =
      some { lex := nextChar (startCursor (indentedText count)), kind := .name, vstr := [97] } := by
    show some (readName 0 _) = _
    rw [readName, whileSome_of_none rfl]
    rfl
  have start : (startCursor (indentedText count)).chr0 = some 97 := rfl
  have place : (startCursor (indentedText count)).line = 1 ∧
      (startCursor (indentedText count)).column = 1 := ⟨rfl, rfl⟩
  simp [mpLexerNew, mpLexerToNext, startLexer, settled, name, Cursor.isEnd, start, place,
    bracketDelta, letterLexer]

/-- The lexer in front of the second line. -/
def lineLexer (count : Nat) : Lexer :=
  { letterLexer count with
    chars := letterCursor (count + 4 : Nat)
    vstr := []
    tokLine := 2
    tokColumn := (((count + 4 : Nat) : Int) % 2 ^ 32).toNat }

theorem mpLexerToNext_indented (count : Nat) :
    mpLexerToNext 32 0 (letterLexer count) = some (newLine 32 (lineLexer count)) := by
  have fewer := fun {state next : Bool × Cursor} (gives : skipBody 0 false state = some next) =>
    (skipBody_cases gives).left
  have line : skipBody 0 false (false, (letterLexer count).chars) = some (true, spacesCursor count 1) :=
    rfl
  have passes : skipWhitespace (letterLexer count).chars 0 false =
      (true, letterCursor (count + 4 : Nat)) := by
    rw [skipWhitespace, whileSome_of_some fewer line, skipWhitespace_spaces]
    congr 2
    omega
  have level : (letterLexer count).nestedBracketLevel = 0 := rfl
  unfold mpLexerToNext
  simp only [level, passes]
  rfl

/-- A level of 65536 columns is stored as the bottom level again. -/
theorem lexer_indents_deep : firstColumn (indentedText 65533) = 1 ∧
    ∃ earlier lex, LexerRun 32 0 (indentedText 65533) earlier lex ∧
      ¬IndentationMeets 0 (indentedText 65533) earlier lex := by
  have settled : skipWhitespace (startCursor (indentedText 65533)) 0 false =
      (false, startCursor (indentedText 65533)) := whileSome_of_none rfl
  refine ⟨by rw [firstColumn, settled]; rfl, _, _, .next (.new (mpLexerNew_indented 65533)) rfl
    (mpLexerToNext_indented 65533), fun meets => ?_⟩
  have levels : (newLine 32 (lineLexer 65533)).indentLevel = [0, 0] := by decide
  have nested := meets.nested.decreasing
  rw [levels] at nested
  exact absurd nested (by decide)

end MultiPython.Parse
