import MultiPython.Parse.Progress
import MultiPython.Parse.Tokens

/-!
# Line endings

`next_char` turns carriage returns into newlines and ends the text with one, while it moves a window
of three characters over the text. Behind the window the text may as well have been normalized
beforehand: nothing that the lexer does tells the two apart. So texts with the same normalized form
have the same tokens.
-/

namespace MultiPython.Parse

open Logic Str List Option

/-- The text as `next_char` gives it, behind a carriage return or not: each line ending is a line
feed, and the last character too. -/
def normalized : Bool → List Nat → List Nat
  | _, [] => []
  | afterReturn, c :: rest =>
    if afterReturn ∧ c = lineFeed then normalized false rest
    else if c = carriageReturn then lineFeed :: normalized true rest
    else if rest = [] ∧ c ≠ lineFeed then [c, lineFeed]
    else c :: normalized false rest

/-- The last character of the window and the text after it, normalized. -/
def ahead : Unichar → List Nat → Unichar × List Nat
  | none, rest => (none, normalized false rest)
  | some c, rest => ((normalized false (c :: rest)).head?, (normalized false (c :: rest)).tail)

/-- The cursor with the text normalized. -/
def Cursor.normal (lex : Cursor) : Cursor :=
  { lex with chr2 := (ahead lex.chr2 lex.rest).1, rest := (ahead lex.chr2 lex.rest).2 }

section Window

theorem normalized_cons (c : Nat) (rest : List Nat) :
    normalized false (c :: rest) =
      if c = carriageReturn then lineFeed :: normalized true rest
      else if rest = [] ∧ c ≠ lineFeed then [c, lineFeed]
      else c :: normalized false rest := by
  rw [normalized, if_neg (by simp)]

theorem normalized_after (rest : List Nat) :
    normalized true rest =
      normalized false (if rest.head? = some lineFeed then rest.tail else rest) := by
  cases rest with
  | nil => rfl
  | cons c rest =>
    by_cases line : c = lineFeed
    · subst line
      rfl
    · have inner : (c :: rest).head? ≠ some lineFeed := by simpa using line
      rw [if_neg inner, normalized_cons, normalized, if_neg (by simp [line])]

theorem ahead_text (rest : List Nat) :
    ahead rest.head? rest.tail = ((normalized false rest).head?, (normalized false rest).tail) := by
  cases rest with
  | nil => rfl
  | cons c rest => rfl

theorem normalized_head_ne_none {rest : List Nat} (more : rest ≠ []) :
    (normalized false rest).head? ≠ none := by
  obtain ⟨c, rest, rfl⟩ := exists_cons_of_ne_nil more
  rw [normalized_cons]
  split_ifs <;> simp

/-- What `next_char` does with the end of the window. -/
def slide (chr2 : Unichar) (rest : List Nat) : Unichar × Unichar × List Nat :=
  ((refill chr2 rest).1, endNewline (refill chr2 rest).1 (refill chr2 rest).2.1,
    (refill chr2 rest).2.2)

theorem slide_return (rest : List Nat) : slide (some carriageReturn) rest =
    (some lineFeed, (if rest.head? = some lineFeed then rest.tail else rest).head?,
      (if rest.head? = some lineFeed then rest.tail else rest).tail) := by
  by_cases line : rest.head? = some lineFeed
  · simp [slide, refill, endNewline, line]
  · simp [slide, refill, endNewline, line]

theorem slide_char {c : Nat} (inner : c ≠ carriageReturn) (rest : List Nat) : slide (some c) rest =
    (some c, if rest = [] ∧ c ≠ lineFeed then some lineFeed else rest.head?, rest.tail) := by
  have keeps : refill (some c) rest = (some c, rest.head?, rest.tail) := by
    rw [refill, if_neg (by simpa using inner)]
  simp only [slide, keeps, endNewline]
  simp

theorem slide_ahead (chr2 : Unichar) (rest : List Nat) :
    slide (ahead chr2 rest).1 (ahead chr2 rest).2 =
      ((slide chr2 rest).1, ahead (slide chr2 rest).2.1 (slide chr2 rest).2.2) := by
  cases chr2 with
  | none =>
    have nothing (text : List Nat) : slide none text = (none, text.head?, text.tail) := by
      simp [slide, refill, endNewline]
    rw [ahead, nothing, nothing, ahead_text]
  | some c =>
    rw [ahead, normalized_cons]
    by_cases isReturn : c = carriageReturn
    · subst isReturn
      rw [if_pos rfl, slide_return, normalized_after, ahead_text]
      have line : lineFeed ≠ carriageReturn := by decide
      rw [List.head?_cons, tail_cons, slide_char line, if_neg (by simp)]
    · rw [if_neg isReturn, slide_char isReturn]
      by_cases last : rest = [] ∧ c ≠ lineFeed
      · obtain ⟨rfl, inner⟩ := last
        simp only [inner, ne_eq, not_false_eq_true, and_self, if_true]
        rw [List.head?_cons, tail_cons, slide_char isReturn]
        rfl
      · rw [if_neg last, if_neg last, List.head?_cons, tail_cons, slide_char isReturn,
          ahead_text]
        have stays : ¬(normalized false rest = [] ∧ c ≠ lineFeed) := by
          rintro ⟨empty, inner⟩
          have more : rest ≠ [] := fun same => last ⟨same, inner⟩
          exact normalized_head_ne_none more (by rw [empty]; rfl)
        rw [if_neg stays]

theorem nextChar_normal (lex : Cursor) : nextChar lex.normal = (nextChar lex).normal := by
  have moves := slide_ahead lex.chr2 lex.rest
  have first := congrArg Prod.fst moves
  have second := congrArg (fun moved => moved.2.1) moves
  have third := congrArg (fun moved => moved.2.2) moves
  have inWindow (lex : Cursor) : nextChar lex =
      { chr0 := lex.chr1, chr1 := (slide lex.chr2 lex.rest).1
        chr2 := (slide lex.chr2 lex.rest).2.1, rest := (slide lex.chr2 lex.rest).2.2
        line := if lex.chr0 = some lineFeed then lex.line + 1 else lex.line
        column := nextColumn lex.column lex.chr0, joined := false } := rfl
  rw [inWindow, inWindow, Cursor.normal, Cursor.normal]
  simp only at first second third ⊢
  rw [first, second, third]

end Window

/-! ## White space -/

section WhiteSpace

variable (lex : Cursor)

theorem normal_chr0 : lex.normal.chr0 = lex.chr0 := rfl

theorem normal_chr1 : lex.normal.chr1 = lex.chr1 := rfl

theorem normal_chr2 : charIs isQuote lex.normal.chr2 = charIs isQuote lex.chr2 := by
  rw [Cursor.normal]
  cases lex.chr2 with
  | none => rfl
  | some c =>
    simp only [ahead, normalized_cons]
    by_cases isReturn : c = carriageReturn
    · subst isReturn
      rfl
    · rw [if_neg isReturn]
      split_ifs <;> rfl

theorem iterate_nextChar_normal (count : Nat) :
    nextChar^[count] lex.normal = (nextChar^[count] lex).normal := by
  induction count generalizing lex with
  | zero => rfl
  | succ count ih =>
    rw [Function.iterate_succ_apply, Function.iterate_succ_apply, nextChar_normal,
      ih]

theorem whileCursor_normal {body : Cursor → Option Cursor}
    (commutes : ∀ lex, body lex.normal = (body lex).map Cursor.normal)
    (fewer : ∀ {lex next}, body lex = some next → next.left < lex.left) :
    whileCursor body lex.normal = (whileCursor body lex).normal :=
  whileSome_map commutes fewer fewer lex

theorem skipComment_normal : skipComment lex.normal = (skipComment lex).normal := by
  apply whileCursor_normal
  · intro lex
    by_cases stops : lex.isEnd ∨ lex.chr0 = some lineFeed
    · rw [if_pos stops, if_pos (show lex.normal.isEnd ∨ lex.normal.chr0 = some lineFeed from stops)]
      rfl
    · rw [if_neg stops, nextChar_normal,
        if_neg (show ¬(lex.normal.isEnd ∨ lex.normal.chr0 = some lineFeed) from stops)]
      rfl
  · intro lex next gives
    split_ifs at gives with stops
    cases gives
    exact nextChar_left fun ends => stops (.inl ends)

theorem skipBody_normal (nestedBracketLevel : Int) (stopAtNewline had : Bool) :
    skipBody nestedBracketLevel stopAtNewline (had, lex.normal) =
      (skipBody nestedBracketLevel stopAtNewline (had, lex)).map fun state =>
        (state.1, state.2.normal) := by
  simp only [skipBody, Cursor.isEnd, normal_chr0, normal_chr1, nextChar_normal, skipComment_normal]
  split_ifs <;> rfl

theorem skipWhitespace_normal (nestedBracketLevel : Int) (stopAtNewline : Bool) :
    skipWhitespace lex.normal nestedBracketLevel stopAtNewline =
      ((skipWhitespace lex nestedBracketLevel stopAtNewline).1,
        (skipWhitespace lex nestedBracketLevel stopAtNewline).2.normal) :=
  whileSome_map (f := fun state : Bool × Cursor => (state.1, state.2.normal))
    (fun state => skipBody_normal state.2 nestedBracketLevel stopAtNewline state.1)
    (fun gives => (skipBody_cases gives).left) (fun gives => (skipBody_cases gives).left) (false, lex)

end WhiteSpace

/-! ## Literals -/

/-- A literal with the text normalized. -/
def Literal.normal (lit : Literal) : Literal := { lit with lex := lit.lex.normal }

/-- A token with the text normalized. -/
def Scanned.normal (tok : Scanned) : Scanned := { tok with lex := tok.lex.normal }

section Literals

theorem getHex_normal (numDigits : Nat) (lex : Cursor) (num : Nat) :
    getHex numDigits lex.normal num =
      ((getHex numDigits lex num).1.normal, (getHex numDigits lex num).2) := by
  induction numDigits generalizing lex num with
  | zero => rfl
  | succ numDigits ih =>
    simp only [getHex, nextChar_normal, normal_chr0]
    cases (nextChar lex).chr0 with
    | none => rfl
    | some c =>
      simp only
      split_ifs
      · exact ih _ _
      · rfl

theorem getOctal_normal (digits : Nat) (lex : Cursor) (num : Nat) :
    getOctal digits lex.normal num =
      ((getOctal digits lex num).1.normal, (getOctal digits lex num).2) := by
  induction digits generalizing lex num with
  | zero => rfl
  | succ digits ih =>
    simp only [getOctal, normal_chr1, nextChar_normal]
    cases lex.chr1 with
    | none => rfl
    | some c =>
      simp only
      split_ifs
      · exact ih _ _
      · rfl

theorem hexEscape_normal (lit : Literal) (c : Nat) :
    hexEscape lit.normal c = ((hexEscape lit c).1.normal, (hexEscape lit c).2) := by
  have digits : getHex (hexDigits c) lit.normal.lex 0 = _ := getHex_normal _ lit.lex 0
  rw [hexEscape, hexEscape, digits]
  generalize getHex (hexDigits c) lit.lex 0 = result
  obtain ⟨lex, num⟩ := result
  cases num with
  | none => rfl
  | some num => rfl

theorem parseEscape_normal (isRaw : Bool) (lit : Literal) :
    parseEscape isRaw lit.normal =
      (parseEscape isRaw lit).map fun escaped => (escaped.1.normal, escaped.2) := by
  have chr0 : lit.normal.lex.chr0 = lit.lex.chr0 := rfl
  have kind : lit.normal.kind = lit.kind := rfl
  have octal (c : Nat) : getOctal 2 lit.normal.lex (c - 48) = _ := getOctal_normal _ lit.lex _
  rw [parseEscape, parseEscape, chr0]
  cases lit.lex.chr0 with
  | none => rfl
  | some c =>
    simp only [hexEscape_normal, octal, kind]
    cases plainEscapes.lookup c with
    | some plain =>
      simp only
      split_ifs <;> rfl
    | none =>
      simp only
      split_ifs <;> rfl

theorem addEscaped_normal (lit : Literal) (added : Unichar) :
    addEscaped lit.normal added = (addEscaped lit added).normal := by
  cases added with
  | none => rfl
  | some c =>
    have kind : lit.normal.kind = lit.kind := rfl
    rw [addEscaped, addEscaped, kind]
    split_ifs <;> rfl

theorem literalBody_normal (quoteChar numQuotes : Nat) (isRaw : Bool) (lit : Option Literal) :
    literalBody quoteChar numQuotes isRaw (lit.map Literal.normal) =
      (literalBody quoteChar numQuotes isRaw lit).map (Option.map Literal.normal) := by
  cases lit with
  | none => rfl
  | some lit =>
    have chr0 : lit.normal.lex.chr0 = lit.lex.chr0 := rfl
    have closing : lit.normal.nClosing = lit.nClosing := rfl
    have next : nextChar lit.normal.lex = (nextChar lit.lex).normal := nextChar_normal _
    have escaped : parseEscape isRaw
        { lit.normal with lex := (nextChar lit.lex).normal, nClosing := 0 } = _ :=
      parseEscape_normal isRaw { lit with lex := nextChar lit.lex, nClosing := 0 }
    simp only [map_some, literalBody, chr0]
    cases lit.lex.chr0 with
    | none => rfl
    | some c =>
      simp only [next, closing]
      rw [escaped]
      cases parseEscape isRaw { lit with lex := nextChar lit.lex, nClosing := 0 } with
      | none =>
        split_ifs <;> rfl
      | some result =>
        simp only [map_some, addEscaped_normal]
        split_ifs <;> simp [Literal.normal, nextChar_normal]

theorem parseQuoted_normal (quoteChar numQuotes : Nat) (isRaw : Bool) (lit : Literal) :
    parseQuoted quoteChar numQuotes isRaw lit.normal =
      (parseQuoted quoteChar numQuotes isRaw lit).map Literal.normal := by
  have loop := whileSome_map (f := Option.map Literal.normal)
    (literalBody_normal quoteChar numQuotes isRaw) literalBody_left literalBody_left (some lit)
  rw [map_some] at loop
  rw [parseQuoted, parseQuoted, loop, Option.map_map, Option.map_map]
  rfl

theorem parseStringLiteral_normal (lex : Cursor) (kind : TokenKind) (vstr : List Nat)
    (isRaw : Bool) : parseStringLiteral lex.normal kind vstr isRaw =
      (parseStringLiteral lex kind vstr isRaw).map Literal.normal := by
  have quoted (quoteChar numQuotes : Nat) (lex : Cursor) :
      parseQuoted quoteChar numQuotes isRaw ⟨lex.normal, kind, vstr, 0⟩ = _ :=
    parseQuoted_normal quoteChar numQuotes isRaw ⟨lex, kind, vstr, 0⟩
  simp only [parseStringLiteral, nextChar_normal, normal_chr0, normal_chr1, quoted]
  by_cases double : lex.chr0 = some doubleQuote
  · simp only [double, if_true]
    split_ifs <;> rfl
  · simp only [double, if_false]
    split_ifs <;> rfl

theorem typeCode_normal (lex : Cursor) : typeCode lex.normal = typeCode lex := by
  rw [typeCode, typeCode, normal_chr0, normal_chr1]

theorem isStringOrBytes_normal (lex : Cursor) :
    isStringOrBytes lex.normal = isStringOrBytes lex := by
  rw [isStringOrBytes, isStringOrBytes, normal_chr0, normal_chr1, normal_chr2]

theorem nextLiteral_normal (nestedBracketLevel : Int) (tok : Scanned) :
    nextLiteral nestedBracketLevel tok.normal =
      (nextLiteral nestedBracketLevel tok).map Scanned.normal := by
  have lex : tok.normal.lex = tok.lex.normal := rfl
  have skips (lit : Literal) : skipWhitespace lit.normal.lex nestedBracketLevel true = _ :=
    skipWhitespace_normal lit.lex nestedBracketLevel true
  simp only [nextLiteral, lex, typeCode_normal, iterate_nextChar_normal]
  rw [parseStringLiteral_normal, Option.map_map, Option.map_map]
  apply Option.map_congr
  intro lit _
  simp only [Function.comp, skips]
  rfl

theorem literalsBody_normal (nestedBracketLevel : Int) (tok : Option Scanned) :
    literalsBody nestedBracketLevel (tok.map Scanned.normal) =
      (literalsBody nestedBracketLevel tok).map (Option.map Scanned.normal) := by
  cases tok with
  | none => rfl
  | some tok =>
    have literal : isStringOrBytes tok.normal.lex = _ := isStringOrBytes_normal tok.lex
    have code : typeCode tok.normal.lex = _ := typeCode_normal tok.lex
    have kind : tok.normal.kind = tok.kind := rfl
    simp only [map_some, literalsBody, literal, code, kind, nextLiteral_normal]
    split_ifs <;> rfl

theorem readStrings_normal (lex : Cursor) (nestedBracketLevel : Int) :
    readStrings lex.normal nestedBracketLevel =
      (readStrings lex nestedBracketLevel).map Scanned.normal := by
  have first : nextLiteral nestedBracketLevel ⟨lex.normal, (typeCode lex).1, []⟩ = _ :=
    nextLiteral_normal nestedBracketLevel ⟨lex, (typeCode lex).1, []⟩
  rw [readStrings, readStrings, typeCode_normal, first]
  exact whileSome_map (f := Option.map Scanned.normal) (literalsBody_normal nestedBracketLevel)
    literalsBody_left literalsBody_left _

end Literals

/-! ## The other tokens -/

section Tokens

theorem readName_normal (optimiseValue : Nat) (lex : Cursor) :
    readName optimiseValue lex.normal = (readName optimiseValue lex).normal := by
  have commutes (tok : Scanned) : nameBody tok.normal = (nameBody tok).map Scanned.normal := by
    have chr0 : tok.normal.lex.chr0 = tok.lex.chr0 := rfl
    have next : nextChar tok.normal.lex = _ := nextChar_normal tok.lex
    rw [nameBody, nameBody, chr0]
    cases tok.lex.chr0 with
    | none => rfl
    | some c =>
      simp only [next]
      split_ifs <;> rfl
  have loop := whileSome_map (f := Scanned.normal) commutes nameBody_left nameBody_left
    ⟨nextChar lex, .name, lex.chr0.toList⟩
  rw [readName, readName, nextChar_normal, normal_chr0]
  simp only [Scanned.normal] at loop
  rw [loop]
  rfl

theorem readExponent_normal (tok : Scanned) :
    readExponent tok.normal = (readExponent tok).normal := by
  have next : nextChar tok.normal.lex = _ := nextChar_normal tok.lex
  simp only [readExponent, next, normal_chr0, nextChar_normal]
  cases (nextChar tok.lex).chr0 with
  | none => rfl
  | some sign =>
    simp only
    split_ifs <;> rfl

theorem readNumber_normal (lex : Cursor) :
    readNumber lex.normal = (readNumber lex).normal := by
  have commutes (forcedInteger : Bool) (tok : Scanned) :
      numberBody forcedInteger tok.normal = (numberBody forcedInteger tok).map Scanned.normal := by
    have chr0 : tok.normal.lex.chr0 = tok.lex.chr0 := rfl
    have next : nextChar tok.normal.lex = _ := nextChar_normal tok.lex
    rw [numberBody, numberBody, chr0]
    cases tok.lex.chr0 with
    | none => rfl
    | some c =>
      simp only [next, readExponent_normal]
      split_ifs <;> rfl
  have loop (forcedInteger : Bool) (tok : Scanned) := whileSome_map (f := Scanned.normal)
    (commutes forcedInteger) numberBody_left numberBody_left tok
  simp only [readNumber, normal_chr0, normal_chr1, nextChar_normal]
  exact loop _ ⟨nextChar lex, _, _⟩

theorem matchEnc_normal (enc : List Char) (tIndex index : Nat) (lex : Cursor) :
    matchEnc enc tIndex index lex.normal =
      ((matchEnc enc tIndex index lex).1.normal, (matchEnc enc tIndex index lex).2) := by
  fun_induction matchEnc enc tIndex index lex with
  | case1 c enc tIndex index lex here continues =>
    rw [matchEnc, if_pos continues, if_pos (show lex.normal.chr0 = _ from here), if_pos rfl,
      nextChar_normal]
  | case2 how c enc tIndex index lex continues here goesOn ih =>
    rw [matchEnc, if_pos continues, if_pos (show lex.normal.chr0 = _ from here), if_neg goesOn,
      nextChar_normal, ih]
  | case3 c enc tIndex index lex differs continues =>
    rw [matchEnc, if_pos continues, if_neg (show ¬lex.normal.chr0 = _ from differs), if_pos rfl]
  | case4 how c enc tIndex index lex continues differs goesOn ih =>
    rw [matchEnc, if_pos continues, if_neg (show ¬lex.normal.chr0 = _ from differs),
      if_neg goesOn, ih]
  | case5 how c enc tIndex index lex stops => rw [matchEnc, if_neg stops]
  | case6 enc tIndex index lex short =>
    rw [matchEnc]
    exact short

theorem operatorAt_normal (lex : Cursor) (index : Nat) (enc : List Char) :
    operatorAt lex.normal index enc = (operatorAt lex index enc).normal := by
  cases enc with
  | nil => rfl
  | cons t enc =>
    simp only [operatorAt, normal_chr0, normal_chr1, nextChar_normal, matchEnc_normal]
    split_ifs <;> rfl

theorem readOperator_normal (lex : Cursor) : readOperator lex.normal = (readOperator lex).normal := by
  simp only [readOperator, normal_chr0, nextChar_normal, operatorAt_normal]

theorem readToken_normal (optimiseValue : Nat) (lex : Cursor) (nestedBracketLevel : Int) :
    readToken optimiseValue lex.normal nestedBracketLevel =
      (readToken optimiseValue lex nestedBracketLevel).map Scanned.normal := by
  simp only [readToken, isStringOrBytes_normal, readStrings_normal, normal_chr0, normal_chr1,
    readName_normal, readNumber_normal, readOperator_normal]
  split_ifs <;> rfl

/-- The lexer with the text normalized. -/
def Lexer.normal (lex : Lexer) : Lexer := { lex with chars := lex.chars.normal }

theorem newLine_normal (wordBits : Nat) (lex : Lexer) :
    newLine wordBits lex.normal = (newLine wordBits lex).normal := by
  have column : lex.normal.chars.column = lex.chars.column := rfl
  have top : lex.normal.indentTop = lex.indentTop := rfl
  have levels : lex.normal.indentLevel = lex.indentLevel := rfl
  have dent : lex.normal.emitDent = lex.emitDent := rfl
  simp only [newLine, column, top, levels, dent]
  split_ifs <;> rfl

theorem mpLexerToNext_normal (wordBits optimiseValue : Nat) (before : Lexer) :
    mpLexerToNext wordBits optimiseValue before.normal =
      (mpLexerToNext wordBits optimiseValue before).map Lexer.normal := by
  have skips : skipWhitespace before.normal.chars before.normal.nestedBracketLevel false = _ :=
    skipWhitespace_normal before.chars before.nestedBracketLevel false
  have dent : before.normal.emitDent = before.emitDent := rfl
  have level : before.normal.nestedBracketLevel = before.nestedBracketLevel := rfl
  rw [mpLexerToNext, mpLexerToNext, skips]
  generalize skipWhitespace before.chars before.nestedBracketLevel false = skipped
  obtain ⟨had, chars⟩ := skipped
  simp only [dent, level]
  by_cases dedents : before.emitDent < 0
  · rw [if_pos dedents, if_pos dedents]
    rfl
  rw [if_neg dedents, if_neg dedents]
  by_cases indents : 0 < before.emitDent
  · rw [if_pos indents, if_pos indents]
    rfl
  rw [if_neg indents, if_neg indents]
  by_cases line : had = true ∧ before.nestedBracketLevel = 0
  · rw [if_pos line, if_pos line]
    exact congrArg some (newLine_normal wordBits { before with
      chars := chars, vstr := [], tokLine := chars.line
      tokColumn := (chars.column % 2 ^ wordBits).toNat })
  rw [if_neg line, if_neg line]
  by_cases ends : chars.isEnd
  · rw [if_pos ends, if_pos (show chars.normal.isEnd from ends)]
    rfl
  · rw [if_neg ends, if_neg (show ¬chars.normal.isEnd from ends), readToken_normal,
      Option.map_map, Option.map_map]
    rfl

end Tokens

/-! ## Texts -/

/-- The token that the lexer has read: its kind, text, line and column. -/
def Lexer.token (lex : Lexer) : TokenKind × List Nat × Nat × Nat :=
  (lex.tokKind, lex.vstr, lex.tokLine, lex.tokColumn)

/-- The lexer at a token of a text. It may have raised. -/
def lexerAt (wordBits optimiseValue : Nat) (text : List Nat) : Nat → Option Lexer
  | 0 => mpLexerNew wordBits optimiseValue text
  | count + 1 =>
    (lexerAt wordBits optimiseValue text count).bind (mpLexerToNext wordBits optimiseValue)

section Texts

variable {wordBits optimiseValue : Nat} {text written : List Nat}

section

variable (same : normalized false (0 :: text) = normalized false (0 :: written))

include same

theorem startCursor_normal :
    (startCursor text).normal = (startCursor written).normal := by
  have start (text : List Nat) : (startCursor text).normal = nextChar (nextChar (nextChar
      (Cursor.normal ⟨some 0, some 0, some 0, text, 1, -2, false⟩))) := by
    rw [nextChar_normal, nextChar_normal, nextChar_normal]
    rfl
  rw [start, start]
  simp only [Cursor.normal, ahead, same]

theorem mpLexerNew_normal :
    (mpLexerNew wordBits optimiseValue text).map Lexer.normal =
      (mpLexerNew wordBits optimiseValue written).map Lexer.normal := by
  have start : (startLexer text).normal = (startLexer written).normal := by
    simp only [Lexer.normal, startLexer, startCursor_normal same]
  have commutes (text : List Nat) : (mpLexerNew wordBits optimiseValue text).map Lexer.normal =
      (mpLexerToNext wordBits optimiseValue (startLexer text).normal).map fun lex =>
        if lex.tokColumn ≠ 1 then { lex with tokKind := .indent } else lex := by
    rw [mpLexerNew, mpLexerToNext_normal, Option.map_map, Option.map_map]
    apply Option.map_congr
    intro lex _
    simp only [Function.comp]
    by_cases column : lex.tokColumn ≠ 1
    · rw [if_pos column, if_pos (show lex.normal.tokColumn ≠ 1 from column)]
      rfl
    · rw [if_neg column, if_neg (show ¬lex.normal.tokColumn ≠ 1 from column)]
  rw [commutes, commutes, start]

theorem lexerAt_normal (count : Nat) :
    (lexerAt wordBits optimiseValue text count).map Lexer.normal =
      (lexerAt wordBits optimiseValue written count).map Lexer.normal := by
  induction count with
  | zero => exact mpLexerNew_normal same
  | succ count ih =>
    have step (text : List Nat) :
        (lexerAt wordBits optimiseValue text (count + 1)).map Lexer.normal =
          ((lexerAt wordBits optimiseValue text count).map Lexer.normal).bind
            (mpLexerToNext wordBits optimiseValue) := by
      rw [lexerAt]
      cases lexerAt wordBits optimiseValue text count with
      | none => rfl
      | some lex => exact (mpLexerToNext_normal _ _ lex).symm
    rw [step, step, ih]

end

end Texts

/-! ## Ways to write the endings of the lines -/

/-- The bytes of a line ending. -/
inductive LineEnding where
  | lf | crlf | cr
deriving DecidableEq

def LineEnding.bytes : LineEnding → List Nat
  | .lf => [lineFeed]
  | .crlf => [carriageReturn, lineFeed]
  | .cr => [carriageReturn]

/-- A text without carriage returns, and the text with each line ending written in some way, where
a carriage return alone is not written before a line feed. -/
inductive Rewritten : List Nat → List Nat → Prop where
  | nil : Rewritten [] []
  | char {c : Nat} {text written : List Nat} (inner : c ≠ lineFeed) (noReturn : c ≠ carriageReturn)
      (rest : Rewritten text written) : Rewritten (c :: text) (c :: written)
  | ending (ending : LineEnding) {text written : List Nat}
      (apart : ending = .cr → written.head? ≠ some lineFeed) (rest : Rewritten text written) :
      Rewritten (lineFeed :: text) (ending.bytes ++ written)

/-- The line endings of a text are written in some way, and one may be added at the end of a text
that does not end in one. -/
def SameLines (text written : List Nat) : Prop :=
  Rewritten text written ∨ text.getLast? ≠ some lineFeed ∧ Rewritten (text ++ [lineFeed]) written

section Rewritten

variable {text written : List Nat}

theorem Rewritten.nil_iff (rewritten : Rewritten text written) : text = [] ↔ written = [] := by
  cases rewritten with
  | nil => rfl
  | char => simp
  | ending ending => cases ending <;> simp [LineEnding.bytes]

theorem Rewritten.noReturn (rewritten : Rewritten text written) : carriageReturn ∉ text := by
  induction rewritten with
  | nil => exact not_mem_nil
  | char _ noReturn _ ih =>
    rw [mem_cons, not_or]
    exact ⟨fun same => noReturn same.symm, ih⟩
  | ending _ _ _ ih =>
    rw [mem_cons, not_or]
    exact ⟨by decide, ih⟩

theorem normalized_lineFeed (rest : List Nat) :
    normalized false (lineFeed :: rest) = lineFeed :: normalized false rest := by
  rw [normalized_cons, if_neg (by decide), if_neg (by simp)]

theorem Rewritten.normalized (rewritten : Rewritten text written) :
    normalized false text = normalized false written := by
  induction rewritten with
  | nil => rfl
  | char inner noReturn rest ih =>
    rw [normalized_cons, normalized_cons, if_neg noReturn, if_neg noReturn, ih]
    simp only [rest.nil_iff]
  | ending ending apart rest ih =>
    rw [normalized_lineFeed, ih]
    cases ending with
    | lf => rw [LineEnding.bytes, singleton_append, normalized_lineFeed]
    | crlf =>
      rw [LineEnding.bytes, cons_append, singleton_append, normalized_cons, if_pos rfl,
        normalized_after, List.head?_cons, if_pos rfl, tail_cons]
    | cr =>
      rw [LineEnding.bytes, singleton_append, normalized_cons, if_pos rfl,
        normalized_after, if_neg (apart rfl)]

theorem normalized_concat {c : Nat} {rest : List Nat} (noReturn : carriageReturn ∉ c :: rest)
    (open_ : (c :: rest).getLast? ≠ some lineFeed) :
    normalized false (c :: (rest ++ [lineFeed])) = normalized false (c :: rest) := by
  induction rest generalizing c with
  | nil =>
    have inner : c ≠ lineFeed := by simpa using open_
    have notReturn : c ≠ carriageReturn := by
      rintro rfl
      exact noReturn mem_cons_self
    rw [nil_append, normalized_cons c [lineFeed], if_neg notReturn, if_neg (by simp),
      normalized_cons c [], if_neg notReturn, if_pos ⟨rfl, inner⟩]
    rfl
  | cons d rest ih =>
    obtain ⟨notReturn, noReturn⟩ := mem_cons.not.mp noReturn |> not_or.mp
    have step := ih noReturn (by simpa using open_)
    rw [cons_append, normalized_cons, normalized_cons c, if_neg (Ne.symm notReturn),
      if_neg (Ne.symm notReturn), if_neg (by simp), if_neg (by simp), step]

theorem SameLines.normalized (same : SameLines text written) :
    normalized false (0 :: text) = normalized false (0 :: written) := by
  rcases same with rewritten | ⟨open_, rewritten⟩
  · exact (Rewritten.char (by decide) (by decide) rewritten).normalized
  · have first := Rewritten.char (c := 0) (by decide) (by decide) rewritten
    rw [← first.normalized, normalized_concat]
    · intro member
      exact first.noReturn (mem_append_left _ member)
    · cases text with
      | nil => decide
      | cons c rest => simpa using open_

end Rewritten

/-- The endings of the lines do not matter: token for token, the kind, the text, the line and the
column are the same. -/
theorem lineEndings_tokens {text written : List Nat} (same : SameLines text written)
    (wordBits optimiseValue count : Nat) :
    (lexerAt wordBits optimiseValue text count).map Lexer.token =
      (lexerAt wordBits optimiseValue written count).map Lexer.token := by
  have both := congrArg (Option.map Lexer.token)
    (@lexerAt_normal wordBits optimiseValue _ _ same.normalized count)
  simp only [Option.map_map] at both
  exact both

/-- A line, a carriage return for an empty one, and a last one that gets an ending. -/
theorem lineEndings_tokens_three :
    (lexerAt 32 0 [97, 10, 10, 98] 3).map Lexer.token =
      (lexerAt 32 0 [97, 13, 13, 10, 98, 13] 3).map Lexer.token := by
  apply lineEndings_tokens
  right
  refine ⟨by decide, .char (by decide) (by decide) (.ending .cr (by simp)
    (.ending .crlf nofun (.char (by decide) (by decide) (.ending .cr (by simp) .nil))))⟩

end MultiPython.Parse
