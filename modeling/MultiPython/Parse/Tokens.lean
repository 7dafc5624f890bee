import MultiPython.Parse.Cursor

/-!
# Tokens

What reads a token keeps to the rules of the file's end: it is an error, or it stops inside of the
text; only a literal may be followed by white space that has been skipped.
-/

namespace MultiPython.Parse

open Logic Str List Option

variable {lex : Cursor} {c : Nat} {nestedBracketLevel : Int}

theorem Cursor.Inside.nextChar (inside : lex.Inside) : (nextChar lex).Closed :=
  inside.toClosed.nextChar inside.more

/-- A token that is not of the layout: where it leaves the cursor. -/
structure Reads (nestedBracketLevel : Int) (tok : Scanned) : Prop where
  closed : tok.lex.Closed
  ends : tok.kind.isError = false → tok.lex.isEnd →
    tok.lex.joined = true ∨ (nestedBracketLevel ≠ 0 ∧ bracketDelta tok.kind = 0)
  kind : tok.kind ∉ [TokenKind.endMarker, .dedentMismatch, .newline, .indent, .dedent]

variable {tok : Scanned}

theorem Cursor.Inside.reads (inside : tok.lex.Inside)
    (kind : tok.kind ∉ [TokenKind.endMarker, .dedentMismatch, .newline, .indent, .dedent]) :
    Reads nestedBracketLevel tok :=
  ⟨inside.toClosed, fun _ ends => absurd ends inside.more, kind⟩

/-! ## Literals -/

theorem isXdigit_inner (digit : isXdigit c = true) : c ≠ lineFeed := by
  rintro rfl
  cases digit

theorem isOdigit_inner (digit : isOdigit c = true) : c ≠ lineFeed := by
  rintro rfl
  cases digit

theorem getHex_inside {numDigits num : Nat} (inside : lex.Inside) (here : lex.chr0 = some c)
    (inner : c ≠ lineFeed) : (getHex numDigits lex num).1.Inside := by
  induction numDigits generalizing lex c num with
  | zero => exact inside
  | succ numDigits ih =>
    have after := inside.inner here inner
    obtain ⟨d, next⟩ := ne_none_iff_exists'.mp after.more
    simp only [getHex, next]
    split_ifs with digit
    · exact ih after next (isXdigit_inner digit)
    · exact after

theorem getOctal_inside {digits num : Nat} (inside : lex.Inside) (here : lex.chr0 = some c)
    (inner : c ≠ lineFeed) : (getOctal digits lex num).1.Inside := by
  induction digits generalizing lex c num with
  | zero => exact inside
  | succ digits ih =>
    rw [getOctal]
    cases next : lex.chr1 with
    | none => exact inside
    | some d =>
      simp only
      split_ifs with digit
      · exact ih (inside.inner here inner) next (isOdigit_inner digit)
      · exact inside

/-- What an escape does not change. -/
structure Escapes (before after : Literal) : Prop where
  inside : after.lex.Inside
  nClosing : after.nClosing = before.nClosing
  kind : after.kind = before.kind ∨ after.kind = .invalid

variable {lit : Literal}

theorem hexEscape_escapes (inside : lit.lex.Inside) (here : lit.lex.chr0 = some c)
    (inner : c ≠ lineFeed) : Escapes lit (hexEscape lit c).1 := by
  have after := @getHex_inside lit.lex c (hexDigits c) 0 inside here inner
  rw [hexEscape]
  generalize getHex (hexDigits c) lit.lex 0 = result at after ⊢
  obtain ⟨lex, num⟩ := result
  cases num with
  | none => exact ⟨after, rfl, .inr rfl⟩
  | some num => exact ⟨after, rfl, .inl rfl⟩

variable {isRaw : Bool} {lit after : Literal}

theorem parseEscape_escapes {added : Unichar} (inside : lit.lex.Inside)
    (gives : parseEscape isRaw lit = some (after, added)) : Escapes lit after := by
  obtain ⟨c, here⟩ := ne_none_iff_exists'.mp inside.more
  simp only [parseEscape, here] at gives
  by_cases raw : isRaw = true
  · rw [if_pos raw] at gives
    cases gives
    exact ⟨inside, rfl, .inl rfl⟩
  by_cases line : c = lineFeed
  · rw [if_neg raw, if_pos line] at gives
    cases gives
    exact ⟨inside, rfl, .inl rfl⟩
  rw [if_neg raw, if_neg line] at gives
  cases plain : plainEscapes.lookup c with
  | some stands =>
    rw [plain] at gives
    cases gives
    exact ⟨inside, rfl, .inl rfl⟩
  | none =>
    simp only [plain] at gives
    split_ifs at gives with double hex name octal
    · cases gives
      exact ⟨inside, rfl, .inl rfl⟩
    · have escapes := hexEscape_escapes inside here line
      rw [some.inj gives] at escapes
      exact escapes
    · cases gives
      exact ⟨getOctal_inside inside here line, rfl, .inl rfl⟩
    · cases gives
      exact ⟨inside, rfl, .inl rfl⟩

theorem addEscaped_escapes (inside : lit.lex.Inside) (added : Unichar) :
    Escapes lit (addEscaped lit added) := by
  cases added with
  | none => exact ⟨inside, rfl, .inl rfl⟩
  | some c =>
    rw [addEscaped]
    split_ifs
    · exact ⟨inside, rfl, .inl rfl⟩
    · exact ⟨inside, rfl, .inl rfl⟩
    · exact ⟨inside, rfl, .inr rfl⟩

/-- A literal that is being parsed: it ends inside of the text after a quote. -/
structure Parses (kind : TokenKind) (lit : Literal) : Prop where
  closed : lit.lex.Closed
  quoted : 0 < lit.nClosing → ¬lit.lex.isEnd
  kind : lit.kind = kind ∨ lit.kind = .invalid

variable {quoteChar numQuotes : Nat} {kind : TokenKind}

theorem literalBody_parses {lit next : Option Literal} (quote : quoteChar ≠ lineFeed)
    (before : ∀ l ∈ lit, Parses kind l)
    (gives : literalBody quoteChar numQuotes isRaw lit = some next) :
    ∀ l ∈ next, Parses kind l := by
  cases lit with
  | none => cases gives
  | some lit =>
    have parses := before lit rfl
    cases here : lit.lex.chr0 with
    | none => simp [literalBody, here] at gives
    | some c =>
      have inside : lit.lex.Inside := ⟨parses.closed, by simp [here]⟩
      simp only [literalBody, here] at gives
      split_ifs at gives with stops closing escape
      · cases gives
        rintro _ ⟨⟩
        have after := inside.inner here (closing ▸ quote)
        exact ⟨after.toClosed, fun _ => after.more, parses.kind⟩
      · -- A backslash: the character after it is inside of the text.
        cases gives
        have after := inside.inner here (by rw [escape]; decide)
        intro l member
        cases escaped : parseEscape isRaw
          { lex := Parse.nextChar lit.lex, kind := lit.kind, vstr := lit.vstr, nClosing := 0 } with
        | none =>
          rw [escaped] at member
          cases member
        | some result =>
          obtain ⟨parsed, added⟩ := result
          rw [escaped] at member
          cases member
          have first := parseEscape_escapes after escaped
          have second := addEscaped_escapes first.inside added
          refine ⟨second.inside.nextChar, fun closings => ?_, ?_⟩
          · have none_ : (addEscaped parsed added).nClosing = 0 :=
              second.nClosing.trans first.nClosing
            exact absurd closings (by simp [none_])
          · rcases second.kind with same | invalid
            · rcases first.kind with unchanged | invalid
              · rw [same.trans unchanged]
                exact parses.kind
              · exact .inr (same.trans invalid)
            · exact .inr invalid
      · cases gives
        rintro _ ⟨⟩
        exact ⟨inside.nextChar, fun closings => absurd closings (lt_irrefl 0), parses.kind⟩

/-- A literal that has been parsed. -/
structure Parsed (kind : TokenKind) (lit : Literal) : Prop where
  closed : lit.lex.Closed
  ends : lit.kind.isError = false → ¬lit.lex.isEnd
  kind : lit.kind ∈ [kind, .invalid, .lonelyStringOpen]

theorem parseQuoted_parsed (quote : quoteChar ≠ lineFeed) (some_ : 0 < numQuotes)
    (before : Parses kind lit) (gives : parseQuoted quoteChar numQuotes isRaw lit = some after) :
    Parsed kind after := by
  have parses := @whileSome_invariant _ (literalBody quoteChar numQuotes isRaw) literalLeft (some lit)
    (fun lit => ∀ l ∈ lit, Parses kind l) (by rintro _ ⟨⟩; exact before)
    fun before gives => literalBody_parses quote before gives
  obtain ⟨last, ends, rfl⟩ := map_eq_some_iff.mp gives
  have parsed := parses last ends
  by_cases lonely : last.nClosing < numQuotes
  · exact ⟨parsed.closed, fun fine => by simp [lonely, TokenKind.isError] at fine, by simp [lonely]⟩
  · refine ⟨parsed.closed, fun _ => parsed.quoted (by omega), ?_⟩
    rcases parsed.kind with same | invalid
    · simp [lonely, same]
    · simp [lonely, invalid]

theorem parseStringLiteral_parsed {vstr : List Nat} (inside : lex.Inside)
    (gives : parseStringLiteral lex kind vstr isRaw = some lit) : Parsed kind lit := by
  unfold parseStringLiteral at gives
  simp only at gives
  generalize quoteIs : (if lex.chr0 = some doubleQuote then doubleQuote else singleQuote) = quoteChar
    at gives
  have quote : quoteChar ≠ lineFeed := by
    rw [← quoteIs]
    split_ifs <;> decide
  have opened := inside.nextChar
  split_ifs at gives with triple
  · have second := opened.inner triple.1 quote
    have third := second.inner triple.2 quote
    exact parseQuoted_parsed quote (by decide)
      ⟨third.toClosed, fun none_ => absurd none_ (lt_irrefl 0), .inl rfl⟩ gives
  · exact parseQuoted_parsed quote (by decide)
      ⟨opened, fun none_ => absurd none_ (lt_irrefl 0), .inl rfl⟩ gives

theorem isOneOf_inner {chars : List Char} (one : isOneOf chars c = true)
    (inner : ∀ char ∈ chars, char.toNat ≠ lineFeed) : c ≠ lineFeed := by
  rintro rfl
  obtain ⟨char, member, same⟩ := any_eq_true.mp one
  exact inner char member (by simpa using same)

theorem typeCode_inside (inside : lex.Inside) :
    (Nat.iterate nextChar (typeCode lex).2.2 lex).Inside := by
  have one : ∀ {chars : List Char}, (∀ char ∈ chars, char.toNat ≠ lineFeed) →
      charIs (isOneOf chars) lex.chr0 = true → (nextChar lex).Inside := by
    intro chars inner is
    obtain ⟨c, here, one⟩ := charIs_eq_true is
    exact inside.inner here (isOneOf_inner one inner)
  have two : ∀ {chars : List Char}, (∀ char ∈ chars, char.toNat ≠ lineFeed) →
      (nextChar lex).Inside → charIs (isOneOf chars) lex.chr1 = true →
      (nextChar (nextChar lex)).Inside := by
    intro chars inner first is
    obtain ⟨c, here, one⟩ := charIs_eq_true is
    exact first.inner here (isOneOf_inner one inner)
  unfold typeCode
  split_ifs with u b br r rb
  · exact one (by simp) u
  · exact two (by simp) (one (by simp) b) br
  · exact one (by simp) b
  · exact two (by simp) (one (by simp) r) rb
  · exact one (by simp) r
  · exact inside

theorem typeCode_kind (lex : Cursor) : (typeCode lex).1 ∈ [TokenKind.string, .bytes] := by
  unfold typeCode
  split_ifs <;> simp

/-- Literals that have been accumulated. -/
structure Accumulates (nestedBracketLevel : Int) (kind : TokenKind) (tok : Scanned) : Prop where
  closed : tok.lex.Closed
  ends : tok.kind.isError = false → tok.lex.isEnd →
    tok.lex.joined = true ∨ nestedBracketLevel ≠ 0
  kind : tok.kind ∈ [kind, .invalid, .lonelyStringOpen]

theorem nextLiteral_accumulates {tok after : Scanned} (inside : tok.lex.Inside)
    (gives : nextLiteral nestedBracketLevel tok = some after) :
    Accumulates nestedBracketLevel tok.kind after := by
  obtain ⟨lit, parsed, rfl⟩ := map_eq_some_iff.mp gives
  have parsed := parseStringLiteral_parsed (typeCode_inside inside) parsed
  have skips := @skipWhitespace_skips lit.lex nestedBracketLevel true parsed.closed
  refine ⟨skips.closed, fun fine ends => ?_, parsed.kind⟩
  rcases skips.ends ends with before | ⟨-, bracket⟩ | joined
  · exact absurd before (parsed.ends fine)
  · exact .inr fun level => bracket ⟨rfl, level⟩
  · exact .inl joined

theorem isStringOrBytes_more (literal : isStringOrBytes lex = true) : lex.chr0 ≠ none := by
  intro ends
  simp [isStringOrBytes, ends, charIs] at literal

theorem readStrings_accumulates (inside : lex.Inside)
    (gives : readStrings lex nestedBracketLevel = some tok) :
    Accumulates nestedBracketLevel (typeCode lex).1 tok := by
  have accumulates := @whileSome_invariant _ (literalsBody nestedBracketLevel) scannedLeft
    (nextLiteral nestedBracketLevel ⟨lex, (typeCode lex).1, []⟩)
    (fun tok => ∀ t ∈ tok, Accumulates nestedBracketLevel (typeCode lex).1 t)
    (fun t first => nextLiteral_accumulates inside first) ?_
  · exact accumulates tok gives
  · intro tok next before gives
    cases tok with
    | none => cases gives
    | some tok =>
      have so := before tok rfl
      simp only [literalsBody] at gives
      split_ifs at gives with follows
      cases gives
      intro t another
      have here : tok.lex.Inside := ⟨so.closed, isStringOrBytes_more follows.1⟩
      have after := nextLiteral_accumulates here another
      -- Another literal follows only if the kind is still that of a literal.
      have same : tok.kind = (typeCode lex).1 := by
        have first := typeCode_kind tok.lex
        rw [← follows.2] at first
        have listed := so.kind
        rcases mem_cons.mp listed with same | error
        · exact same
        · exfalso
          revert first error
          generalize tok.kind = kind
          cases kind <;> simp
      rw [same] at after
      exact after

theorem readStrings_reads (inside : lex.Inside)
    (gives : readStrings lex nestedBracketLevel = some tok) : Reads nestedBracketLevel tok := by
  have accumulates := readStrings_accumulates inside gives
  have kinds : tok.kind ∈ [TokenKind.string, .bytes, .invalid, .lonelyStringOpen] := by
    rcases mem_cons.mp accumulates.kind with same | error
    · have literal := typeCode_kind lex
      rw [← same] at literal
      exact mem_append_left [TokenKind.invalid, .lonelyStringOpen] literal
    · exact mem_append_right [TokenKind.string, .bytes] error
  have noDelta : bracketDelta tok.kind = 0 ∧
      tok.kind ∉ [TokenKind.endMarker, .dedentMismatch, .newline, .indent, .dedent] := by
    revert kinds
    generalize tok.kind = kind
    revert kind
    decide
  exact ⟨accumulates.closed,
    fun fine ends => (accumulates.ends fine ends).imp_right fun level => ⟨level, noDelta.1⟩, noDelta.2⟩

/-! ## Names, numbers and operators -/

theorem isTailOfIdentifier_inner (tail : isTailOfIdentifier c = true) : c ≠ lineFeed := by
  rintro rfl
  cases tail

theorem keywordKind_kind (optimiseValue : Nat) (vstr : List Nat) :
    keywordKind optimiseValue vstr ∉
      [TokenKind.endMarker, .dedentMismatch, .newline, .indent, .dedent] := by
  have table : ∀ entry ∈ tokKw, entry.2 ∉
      [TokenKind.endMarker, .dedentMismatch, .newline, .indent, .dedent] := by
    simp [tokKw]
  unfold keywordKind
  split
  · simp
  · split_ifs <;> simp
  · next text kind found => exact table _ (mem_of_find?_eq_some found)

variable {optimiseValue : Nat}

theorem readName_reads (inside : lex.Inside) (here : lex.chr0 = some c) (inner : c ≠ lineFeed) :
    Reads nestedBracketLevel (readName optimiseValue lex) := by
  have after : (readName optimiseValue lex).lex.Inside := by
    refine whileSome_invariant (fun tok : Scanned => tok.lex.Inside) (inside.inner here inner) ?_
    intro tok next inside gives
    obtain ⟨c, here⟩ := ne_none_iff_exists'.mp inside.more
    simp only [nameBody, here] at gives
    split_ifs at gives with tail
    cases gives
    exact inside.inner here (isTailOfIdentifier_inner tail)
  exact after.reads (keywordKind_kind optimiseValue _)

/-- A number that is being read. -/
structure Numbers (tok : Scanned) : Prop where
  inside : tok.lex.Inside
  kind : tok.kind ∈ [TokenKind.integer, .floatOrImag]

theorem readExponent_numbers (inside : tok.lex.Inside) (here : tok.lex.chr0 = some c)
    (inner : c ≠ lineFeed) : Numbers (readExponent tok) := by
  have after := inside.inner here inner
  obtain ⟨sign, follows⟩ := ne_none_iff_exists'.mp after.more
  simp only [readExponent, follows]
  split_ifs with signed
  · exact ⟨after.inner follows (isOneOf_inner signed (by simp)), by simp⟩
  · exact ⟨after, by simp⟩

theorem numberPart_inner (part : (isAlpha c || isDigit c || isOneOf ['.'] c) = true) :
    c ≠ lineFeed := by
  rintro rfl
  cases part

theorem numberBody_numbers {forcedInteger : Bool} {tok next : Scanned} (before : Numbers tok)
    (gives : numberBody forcedInteger tok = some next) : Numbers next := by
  have inside := before.inside
  obtain ⟨c, here⟩ := ne_none_iff_exists'.mp inside.more
  simp only [numberBody, here] at gives
  by_cases exponent : (!forcedInteger) = true ∧ isOneOf ['e', 'E'] c = true
  · rw [if_pos exponent] at gives
    cases gives
    exact readExponent_numbers inside here (isOneOf_inner exponent.2 (by simp))
  by_cases part : (isAlpha c || isDigit c || isOneOf ['.'] c) = true
  · rw [if_neg exponent, if_pos part] at gives
    cases gives
    refine ⟨inside.inner here (numberPart_inner part), ?_⟩
    simp only
    split_ifs
    · simp
    · exact before.kind
  · rw [if_neg exponent, if_neg part] at gives
    split_ifs at gives with underscore
    cases gives
    exact ⟨inside.inner here (isOneOf_inner underscore (by simp)), before.kind⟩

theorem readNumber_reads (inside : lex.Inside) (here : lex.chr0 = some c) (inner : c ≠ lineFeed) :
    Reads nestedBracketLevel (readNumber lex) := by
  have numbers : Numbers (readNumber lex) := by
    unfold readNumber
    apply whileSome_invariant Numbers
    · constructor
      · exact inside.inner here inner
      · simp only
        split_ifs <;> simp
    · exact numberBody_numbers
  refine numbers.inside.reads ?_
  have kind := numbers.kind
  revert kind
  generalize (readNumber lex).kind = kind
  revert kind
  decide

variable {enc : List Char}

theorem searchEnc_subset {chr0 : Unichar} {index : Nat} :
    ∀ char ∈ (searchEnc chr0 enc index).1, char ∈ enc := by
  fun_induction searchEnc chr0 enc index with
  | case1 => simp
  | case2 => simp
  | case3 => simp
  | case4 index t head enc differs skips ih =>
    intro char member
    exact mem_cons_of_mem _ (mem_cons_of_mem _ (ih char member))
  | case5 index t enc differs skips ih =>
    intro char member
    exact mem_cons_of_mem _ (ih char member)

theorem matchEnc_inside {tIndex index : Nat} (inside : lex.Inside)
    (inner : ∀ char ∈ enc, char.toNat ≠ lineFeed) : (matchEnc enc tIndex index lex).1.Inside := by
  fun_induction matchEnc enc tIndex index lex with
  | case1 c enc tIndex index lex here continues =>
    exact inside.inner here (inner c (by simp))
  | case2 how c enc tIndex index lex continues here goesOn ih =>
    exact ih (inside.inner here (inner c (by simp)))
      fun char member => inner char (by simp [member])
  | case3 => exact inside
  | case4 how c enc tIndex index lex continues here goesOn ih =>
    exact ih inside fun char member => inner char (by simp [member])
  | case5 => exact inside
  | case6 => exact inside

theorem tokEnc_inner : ∀ char ∈ tokEnc, char.toNat ≠ lineFeed := by
  simp [tokEnc]

theorem tokEncKind_kind : ∀ kind ∈ TokenKind.invalid :: tokEncKind,
    kind ∉ [TokenKind.endMarker, .dedentMismatch, .newline, .indent, .dedent] := by
  decide

theorem tokEncKind_getD (index : Nat) : tokEncKind.getD index .invalid ∉
    [TokenKind.endMarker, .dedentMismatch, .newline, .indent, .dedent] := by
  apply tokEncKind_kind
  rw [getD_eq_getElem?_getD]
  cases found : tokEncKind[index]? with
  | none => exact mem_cons_self
  | some kind => exact mem_cons_of_mem _ (mem_of_getElem? found)

theorem operatorAt_reads {index : Nat} (inside : lex.Inside)
    (inner : ∀ char ∈ enc, char.toNat ≠ lineFeed) :
    Reads nestedBracketLevel (operatorAt lex index enc) := by
  cases enc with
  | nil => exact Cursor.Inside.reads inside (by simp [operatorAt])
  | cons t enc =>
    rw [operatorAt]
    by_cases exclamation : t = '!'
    · rw [if_pos exclamation]
      by_cases equals : lex.chr0 = some '='.toNat
      · rw [if_pos equals]
        exact Cursor.Inside.reads (inside.inner equals (by simp)) (by simp)
      · rw [if_neg equals]
        exact Cursor.Inside.reads inside (by simp)
    by_cases period : t = '.'
    · rw [if_neg exclamation, if_pos period]
      by_cases dots : lex.chr0 = some '.'.toNat ∧ lex.chr1 = some '.'.toNat
      · rw [if_pos dots]
        have second := inside.inner dots.1 (by simp)
        exact Cursor.Inside.reads (second.inner dots.2 (by simp)) (by simp)
      · rw [if_neg dots]
        exact Cursor.Inside.reads inside (by simp)
    · rw [if_neg exclamation, if_neg period]
      have after := @matchEnc_inside lex enc index index inside
        fun char member => inner char (mem_cons_of_mem t member)
      exact Cursor.Inside.reads after (tokEncKind_getD _)

theorem readOperator_reads (inside : lex.Inside) (here : lex.chr0 = some c) (inner : c ≠ lineFeed) :
    Reads nestedBracketLevel (readOperator lex) :=
  operatorAt_reads (inside.inner here inner) fun char member =>
    tokEnc_inner char (searchEnc_subset char member)

theorem readToken_reads (inside : lex.Inside) (notLine : lex.chr0 ≠ some lineFeed)
    (gives : readToken optimiseValue lex nestedBracketLevel = some tok) :
    Reads nestedBracketLevel tok := by
  obtain ⟨c, here⟩ := ne_none_iff_exists'.mp inside.more
  have inner : c ≠ lineFeed := fun same => notLine (same ▸ here)
  unfold readToken at gives
  split_ifs at gives
  · exact readStrings_reads inside gives
  · cases gives
    exact readName_reads inside here inner
  · cases gives
    exact readNumber_reads inside here inner
  · cases gives
    exact readOperator_reads inside here inner

end MultiPython.Parse
