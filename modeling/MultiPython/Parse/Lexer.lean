import MultiPython.Logic.Loop
import MultiPython.Str.Vstr

/-!
# The lexer

`py/lexer.c`. The characters are bytes, and nothing is the end of the file. The column is a number of
which the machine word keeps the residue; memory for the token text and the indentation levels is
there.
-/

namespace MultiPython.Parse

open Logic Str

/-- `mp_token_kind_t`. -/
inductive TokenKind where
  | endMarker
  | invalid | dedentMismatch | lonelyStringOpen
  | newline | indent | dedent
  | name | integer | floatOrImag | string | bytes
  | ellipsis
  | kwFalse | kwNone | kwTrue | kwDebug | kwAnd | kwAs | kwAssert | kwAsync | kwAwait | kwBreak
  | kwClass | kwContinue | kwDef | kwDel | kwElif | kwElse | kwExcept | kwFinally | kwFor | kwFrom
  | kwGlobal | kwIf | kwImport | kwIn | kwIs | kwLambda | kwNonlocal | kwNot | kwOr | kwPass | kwRaise
  | kwReturn | kwTry | kwWhile | kwWith | kwYield
  | opPlus | opMinus | opStar | opDblStar | opSlash | opDblSlash | opPercent | opLess | opDblLess
  | opMore | opDblMore | opAmpersand | opPipe | opCaret | opTilde | opLessEqual | opMoreEqual
  | opDblEqual | opNotEqual
  | delParenOpen | delParenClose | delBracketOpen | delBracketClose | delBraceOpen | delBraceClose
  | delComma | delColon | delPeriod | delSemicolon | delAt | delEqual | delPlusEqual | delMinusEqual
  | delStarEqual | delSlashEqual | delDblSlashEqual | delPercentEqual | delAmpersandEqual
  | delPipeEqual | delCaretEqual | delDblMoreEqual | delDblLessEqual | delDblStarEqual
  | delMinusMore
deriving DecidableEq, Repr

/-- A character of the source; nothing is `MP_LEXER_EOF`. -/
abbrev Unichar := Option Nat

abbrev lineFeed : Nat := 10
abbrev carriageReturn : Nat := 13
abbrev tabulator : Nat := 9
abbrev backslash : Nat := 92
abbrev singleQuote : Nat := 39
abbrev doubleQuote : Nat := 34

/-- The fields of `mp_lexer_t` that `next_char` changes, with what the reader has still to give.
`joined` is read by nothing: the last line that has ended has been joined to the next one by a
line continuation. -/
structure Cursor where
  chr0 : Unichar
  chr1 : Unichar
  chr2 : Unichar
  rest : List Nat
  line : Nat
  column : Int
  joined : Bool
deriving DecidableEq, Repr

/-- `mp_lexer_t`, with the innermost level of `indent_level` first. -/
structure Lexer where
  chars : Cursor
  emitDent : Int
  nestedBracketLevel : Int
  indentLevel : List Nat
  tokLine : Nat
  tokColumn : Nat
  tokKind : TokenKind
  vstr : List Nat
deriving DecidableEq, Repr

def Cursor.isEnd (lex : Cursor) : Prop := lex.chr0 = none

instance (lex : Cursor) : Decidable lex.isEnd := inferInstanceAs (Decidable (lex.chr0 = none))

/-- A test on a character that the end of the file does not pass. -/
def charIs (test : Nat → Bool) : Unichar → Bool
  | none => false
  | some c => test c

/-- `unichar_isspace`. -/
def isSpace (c : Nat) : Bool := (9 ≤ c && c ≤ 13) || c == 32

/-- `unichar_isalpha`. -/
def isAlpha (c : Nat) : Bool := (65 ≤ c && c ≤ 90) || (97 ≤ c && c ≤ 122)

/-- `unichar_isdigit`. -/
def isDigit (c : Nat) : Bool := 48 ≤ c && c ≤ 57

/-- `unichar_isxdigit`. -/
def isXdigit (c : Nat) : Bool := isDigit c || (65 ≤ c && c ≤ 70) || (97 ≤ c && c ≤ 102)

/-- `unichar_xdigit_value`. -/
def xdigitValue (c : Nat) : Nat :=
  let n := c - 48
  if n > 9 then (n &&& 0xDF) - 7 else n

/-- One of some characters. -/
def isOneOf (chars : List Char) (c : Nat) : Bool := chars.any (·.toNat == c)

/-- `is_head_of_identifier`, for a character that is not the end. -/
def isHeadOfIdentifier (c : Nat) : Bool := isAlpha c || c == 95 || 0x80 ≤ c

def isTailOfIdentifier (c : Nat) : Bool := isHeadOfIdentifier c || isDigit c

/-- `is_following_base_char`. -/
def isBaseChar (c : Nat) : Bool := isOneOf ['b', 'o', 'x'] (c ||| 0x20)

/-- `is_following_odigit`. -/
def isOdigit (c : Nat) : Bool := 48 ≤ c && c ≤ 55

def isQuote (c : Nat) : Bool := c == singleQuote || c == doubleQuote

def isStringOrBytes (lex : Cursor) : Bool :=
  charIs isQuote lex.chr0 ||
    (charIs (isOneOf ['r', 'u', 'b']) lex.chr0 && charIs isQuote lex.chr1) ||
    (((charIs (isOneOf ['r']) lex.chr0 && charIs (isOneOf ['b']) lex.chr1) ||
      (charIs (isOneOf ['b']) lex.chr0 && charIs (isOneOf ['r']) lex.chr1)) &&
      charIs isQuote lex.chr2)

/-- The column after a character. -/
def nextColumn (column : Int) (chr0 : Unichar) : Int :=
  if chr0 = some lineFeed then 1
  else if chr0 = some tabulator then (column - 1 + 8) / 8 * 8 + 1
  else column + 1

/-- The part of `next_char` that takes a character from the reader, where `chr1` is the one before
it: a carriage return, with a line feed after it or not, is one newline. -/
def refill (chr1 : Unichar) (rest : List Nat) : Unichar × Unichar × List Nat :=
  if chr1 = some carriageReturn then
    if rest.head? = some lineFeed then (some lineFeed, rest.tail.head?, rest.tail.tail)
    else (some lineFeed, rest.head?, rest.tail)
  else (chr1, rest.head?, rest.tail)

/-- The newline that `next_char` inserts at the end of the file. -/
def endNewline (chr1 chr2 : Unichar) : Unichar :=
  if chr2 = none ∧ chr1 ≠ none ∧ chr1 ≠ some lineFeed then some lineFeed else chr2

def nextChar (lex : Cursor) : Cursor :=
  let (chr1, chr2, rest) := refill lex.chr2 lex.rest
  { chr0 := lex.chr1
    chr1 := chr1
    chr2 := endNewline chr1 chr2
    rest := rest
    line := if lex.chr0 = some lineFeed then lex.line + 1 else lex.line
    column := nextColumn lex.column lex.chr0
    joined := false }

/-- A bound for the characters to come, with the newline that may be inserted. -/
def Cursor.left (lex : Cursor) : Nat :=
  2 * lex.rest.length + (if lex.chr2 = none then 0 else if lex.chr2 = some lineFeed then 1 else 2) +
    (if lex.chr1 = none then 0 else 1) + (if lex.chr0 = none then 0 else 1)

/-- Repeat a loop that moves the cursor. -/
def whileCursor (body : Cursor → Option Cursor) (lex : Cursor) : Cursor :=
  whileSome body Cursor.left lex

/-- The rest of a comment in `skip_whitespace`. -/
def skipComment (lex : Cursor) : Cursor :=
  whileCursor
    (fun lex => if lex.isEnd ∨ lex.chr0 = some lineFeed then none else some (nextChar lex)) lex

/-- The loop body of `skip_whitespace`, with `had_physical_newline`. -/
def skipBody (nestedBracketLevel : Int) (stopAtNewline : Bool) (state : Bool × Cursor) :
    Option (Bool × Cursor) :=
  let (hadPhysicalNewline, lex) := state
  if lex.isEnd then none
  else if lex.chr0 = some lineFeed then
    if stopAtNewline ∧ nestedBracketLevel = 0 then none else some (true, nextChar lex)
  else if charIs isSpace lex.chr0 then some (hadPhysicalNewline, nextChar lex)
  else if charIs (isOneOf ['#']) lex.chr0 then
    some (hadPhysicalNewline, skipComment (nextChar lex))
  else if lex.chr0 = some backslash ∧ lex.chr1 = some lineFeed then
    some (hadPhysicalNewline, { nextChar (nextChar lex) with joined := true })
  else none

def skipWhitespace (lex : Cursor) (nestedBracketLevel : Int) (stopAtNewline : Bool) :
    Bool × Cursor :=
  whileSome (skipBody nestedBracketLevel stopAtNewline) (fun state => state.2.left) (false, lex)

/-- `get_hex`; nothing if there are not enough digits. -/
def getHex : Nat → Cursor → Nat → Cursor × Option Nat
  | 0, lex, num => (lex, some num)
  | numDigits + 1, lex, num =>
    let lex := nextChar lex
    match lex.chr0 with
    | none => (lex, none)
    | some c => if isXdigit c then getHex numDigits lex (num * 16 + xdigitValue c) else (lex, none)

/-- The digits of an octal escape after the first one. -/
def getOctal : Nat → Cursor → Nat → Cursor × Nat
  | 0, lex, num => (lex, num)
  | digits + 1, lex, num =>
    match lex.chr1 with
    | none => (lex, num)
    | some c =>
      if isOdigit c then getOctal digits (nextChar lex) (num * 8 + (c - 48)) else (lex, num)

/-- A literal that is being parsed: where it is, `tok_kind`, the text and `n_closing`. -/
structure Literal where
  lex : Cursor
  kind : TokenKind
  vstr : List Nat
  nClosing : Nat
deriving DecidableEq, Repr

/-- The escapes that stand for one character. -/
def plainEscapes : List (Nat × Nat) :=
  [(backslash, backslash), (singleQuote, singleQuote), (doubleQuote, doubleQuote),
    ('a'.toNat, 0x07), ('b'.toNat, 0x08), ('t'.toNat, 0x09), ('n'.toNat, 0x0a), ('v'.toNat, 0x0b),
    ('f'.toNat, 0x0c), ('r'.toNat, 0x0d)]

/-- The number of digits of an escape with hexadecimal digits. -/
def hexDigits (c : Nat) : Nat := if isOneOf ['x'] c then 2 else if isOneOf ['u'] c then 4 else 8

/-- An escape with hexadecimal digits. -/
def hexEscape (lit : Literal) (c : Nat) : Literal × Unichar :=
  match getHex (hexDigits c) lit.lex 0 with
  | (lex, none) => ({ lit with lex := lex, kind := .invalid }, some 0)
  -- The largest number is the one that stands for the end of the file.
  | (lex, some num) => ({ lit with lex := lex }, if num = 0xFFFFFFFF then none else some num)

/-- The switch of `parse_string_literal` on the character after a backslash: the literal after it and
the character to add, nothing for none of them. It may raise. -/
def parseEscape (isRaw : Bool) (lit : Literal) : Option (Literal × Unichar) :=
  let verbatim := { lit with vstr := lit.vstr ++ [backslash] }
  match lit.lex.chr0 with
  | none => some (verbatim, none)
  | some c =>
    if isRaw then some (verbatim, some c)
    else if c = lineFeed then some (lit, none)
    else if let some plain := plainEscapes.lookup c then some (lit, some plain)
    else if isOneOf ['u', 'U'] c ∧ lit.kind = .bytes then some (verbatim, some c)
    else if isOneOf ['x', 'u', 'U'] c then some (hexEscape lit c)
    else if isOneOf ['N'] c then none
    else if isOdigit c then
      let (lex, num) := getOctal 2 lit.lex (c - 48)
      some ({ lit with lex := lex }, some num)
    else some (verbatim, some c)

/-- Add the character of an escape. -/
def addEscaped (lit : Literal) : Unichar → Literal
  | none => lit
  | some c =>
    if c < 0x110000 ∧ lit.kind = .string then { lit with vstr := lit.vstr ++ charBytes c }
    else if c < 0x100 ∧ lit.kind = .bytes then { lit with vstr := lit.vstr ++ [c] }
    else { lit with kind := .invalid }

/-- The loop body of `parse_string_literal`; the literal is nothing after it has raised. -/
def literalBody (quoteChar numQuotes : Nat) (isRaw : Bool) :
    Option Literal → Option (Option Literal)
  | none => none
  | some lit =>
    match lit.lex.chr0 with
    | none => none
    | some c =>
      if (numQuotes = 1 ∧ c = lineFeed) ∨ numQuotes ≤ lit.nClosing then none
      else if c = quoteChar then
        some (some { lit with
          lex := nextChar lit.lex
          vstr := lit.vstr ++ charBytes c
          nClosing := lit.nClosing + 1 })
      else if c = backslash then
        some ((parseEscape isRaw { lit with lex := nextChar lit.lex, nClosing := 0 }).map
          fun (lit, c) =>
            let lit := addEscaped lit c
            { lit with lex := nextChar lit.lex })
      else
        some (some { lit with
          lex := nextChar lit.lex
          vstr := lit.vstr ++ [c]
          nClosing := 0 })

/-- A bound for the rounds of the loop of `parse_string_literal`. -/
def literalLeft : Option Literal → Nat
  | none => 0
  | some lit => lit.lex.left + 1

/-- `parse_string_literal` behind the opening quotes. -/
def parseQuoted (quoteChar numQuotes : Nat) (isRaw : Bool) (lit : Literal) : Option Literal :=
  (whileSome (literalBody quoteChar numQuotes isRaw) literalLeft (some lit)).map fun lit =>
    { lit with
      kind := if lit.nClosing < numQuotes then .lonelyStringOpen else lit.kind
      vstr := lit.vstr.take (lit.vstr.length - lit.nClosing) }

def parseStringLiteral (lex : Cursor) (kind : TokenKind) (vstr : List Nat) (isRaw : Bool) :
    Option Literal :=
  let quoteChar := if lex.chr0 = some doubleQuote then doubleQuote else singleQuote
  let lex := nextChar lex
  if lex.chr0 = some quoteChar ∧ lex.chr1 = some quoteChar then
    parseQuoted quoteChar 3 isRaw ⟨nextChar (nextChar lex), kind, vstr, 0⟩
  else parseQuoted quoteChar 1 isRaw ⟨lex, kind, vstr, 0⟩

/-- A token that has been read: the cursor after it, `tok_kind` and the text. -/
structure Scanned where
  lex : Cursor
  kind : TokenKind
  vstr : List Nat
deriving DecidableEq, Repr

/-- The type codes before a literal: its kind, whether it is raw and the number of characters. -/
def typeCode (lex : Cursor) : TokenKind × Bool × Nat :=
  if charIs (isOneOf ['u']) lex.chr0 then (.string, false, 1)
  else if charIs (isOneOf ['b']) lex.chr0 then
    if charIs (isOneOf ['r']) lex.chr1 then (.bytes, true, 2) else (.bytes, false, 1)
  else if charIs (isOneOf ['r']) lex.chr0 then
    if charIs (isOneOf ['b']) lex.chr1 then (.bytes, true, 2) else (.string, true, 1)
  else (.string, false, 0)

/-- One round of the loop that accumulates literals, after the check of the kind. -/
def nextLiteral (nestedBracketLevel : Int) (tok : Scanned) : Option Scanned :=
  let (_, isRaw, nChar) := typeCode tok.lex
  (parseStringLiteral (Nat.iterate nextChar nChar tok.lex) tok.kind tok.vstr isRaw).map fun lit =>
    { lex := (skipWhitespace lit.lex nestedBracketLevel true).2, kind := lit.kind, vstr := lit.vstr }

/-- The loop that accumulates literals: another one follows if there is one of the same kind. -/
def literalsBody (nestedBracketLevel : Int) : Option Scanned → Option (Option Scanned)
  | none => none
  | some tok =>
    if isStringOrBytes tok.lex ∧ tok.kind = (typeCode tok.lex).1 then
      some (nextLiteral nestedBracketLevel tok)
    else none

def scannedLeft : Option Scanned → Nat
  | none => 0
  | some tok => tok.lex.left + 1

/-- A string or bytes literal. -/
def readStrings (lex : Cursor) (nestedBracketLevel : Int) : Option Scanned :=
  whileSome (literalsBody nestedBracketLevel) scannedLeft
    (nextLiteral nestedBracketLevel ⟨lex, (typeCode lex).1, []⟩)

/-- `tok_kw` with the kinds, in order. -/
def tokKw : List (String × TokenKind) :=
  [("False", .kwFalse), ("None", .kwNone), ("True", .kwTrue), ("__debug__", .kwDebug),
    ("and", .kwAnd), ("as", .kwAs), ("assert", .kwAssert), ("async", .kwAsync), ("await", .kwAwait),
    ("break", .kwBreak), ("class", .kwClass), ("continue", .kwContinue), ("def", .kwDef),
    ("del", .kwDel), ("elif", .kwElif), ("else", .kwElse), ("except", .kwExcept),
    ("finally", .kwFinally), ("for", .kwFor), ("from", .kwFrom), ("global", .kwGlobal),
    ("if", .kwIf), ("import", .kwImport), ("in", .kwIn), ("is", .kwIs), ("lambda", .kwLambda),
    ("nonlocal", .kwNonlocal), ("not", .kwNot), ("or", .kwOr), ("pass", .kwPass),
    ("raise", .kwRaise), ("return", .kwReturn), ("try", .kwTry), ("while", .kwWhile),
    ("with", .kwWith), ("yield", .kwYield)]

/-- The kind of a name. The table is sorted, so that the search may stop early; `__debug__` stands
for its value. -/
def keywordKind (optimiseValue : Nat) (vstr : List Nat) : TokenKind :=
  match tokKw.find? fun (text, _) => text.toList.map Char.toNat == vstr with
  | none => .name
  | some (_, .kwDebug) => if optimiseValue = 0 then .kwTrue else .kwFalse
  | some (_, kind) => kind

/-- The loop body for the tail of a name. -/
def nameBody (tok : Scanned) : Option Scanned :=
  match tok.lex.chr0 with
  | none => none
  | some c =>
    if isTailOfIdentifier c then
      some { tok with lex := nextChar tok.lex, vstr := tok.vstr ++ [c] }
    else none

/-- A name or a keyword. -/
def readName (optimiseValue : Nat) (lex : Cursor) : Scanned :=
  let tok := whileSome nameBody (fun tok => tok.lex.left)
    { lex := nextChar lex, kind := .name, vstr := lex.chr0.toList }
  { tok with kind := keywordKind optimiseValue tok.vstr }

/-- The exponent mark of a number, with a sign if there is one. -/
def readExponent (tok : Scanned) : Scanned :=
  let lex := nextChar tok.lex
  let vstr := tok.vstr ++ charBytes 'e'.toNat
  match lex.chr0 with
  | none => ⟨lex, .floatOrImag, vstr⟩
  | some sign =>
    if isOneOf ['+', '-'] sign then ⟨nextChar lex, .floatOrImag, vstr ++ charBytes sign⟩
    else ⟨lex, .floatOrImag, vstr⟩

/-- The loop body for the tail of a number. -/
def numberBody (forcedInteger : Bool) (tok : Scanned) : Option Scanned :=
  match tok.lex.chr0 with
  | none => none
  | some c =>
    if !forcedInteger ∧ isOneOf ['e', 'E'] c then some (readExponent tok)
    else if isAlpha c || isDigit c || isOneOf ['.'] c then
      some {
        lex := nextChar tok.lex
        kind := if isOneOf ['.', 'j', 'J'] c then .floatOrImag else tok.kind
        vstr := tok.vstr ++ charBytes c }
    else if isOneOf ['_'] c then some { tok with lex := nextChar tok.lex }
    else none

/-- A number. -/
def readNumber (lex : Cursor) : Scanned :=
  let point := charIs (isOneOf ['.']) lex.chr0
  let forcedInteger := !point && charIs (isOneOf ['0']) lex.chr0 && charIs isBaseChar lex.chr1
  whileSome (numberBody forcedInteger) (fun tok => tok.lex.left)
    { lex := nextChar lex
      kind := if point then .floatOrImag else .integer
      vstr := lex.chr0.toList.flatMap charBytes }

def tokEnc : List Char :=
  ['(', ')', '[', ']', '{', '}', ',', ':', ';', '@', '~',
    '<', 'e', '=', 'c', '<', 'e', '=',
    '>', 'e', '=', 'c', '>', 'e', '=',
    '*', 'e', '=', 'c', '*', 'e', '=',
    '+', 'e', '=',
    '-', 'e', '=', 'e', '>',
    '&', 'e', '=',
    '|', 'e', '=',
    '/', 'e', '=', 'c', '/', 'e', '=',
    '%', 'e', '=',
    '^', 'e', '=',
    '=', 'e', '=',
    '!', '.']

def tokEncKind : List TokenKind :=
  [.delParenOpen, .delParenClose, .delBracketOpen, .delBracketClose, .delBraceOpen, .delBraceClose,
    .delComma, .delColon, .delSemicolon, .delAt, .opTilde,
    .opLess, .opLessEqual, .opDblLess, .delDblLessEqual,
    .opMore, .opMoreEqual, .opDblMore, .delDblMoreEqual,
    .opStar, .delStarEqual, .opDblStar, .delDblStarEqual,
    .opPlus, .delPlusEqual,
    .opMinus, .delMinusEqual, .delMinusMore,
    .opAmpersand, .delAmpersandEqual,
    .opPipe, .delPipeEqual,
    .opSlash, .delSlashEqual, .opDblSlash, .delDblSlashEqual,
    .opPercent, .delPercentEqual,
    .opCaret, .delCaretEqual,
    .delEqual, .opDblEqual]

/-- The search for a character in `tok_enc`: what is left of it, and `tok_enc_index`. -/
def searchEnc (chr0 : Unichar) : List Char → Nat → List Char × Nat
  | [], index => ([], index)
  | t :: enc, index =>
    if chr0 = some t.toNat then (t :: enc, index)
    else if t = 'e' ∨ t = 'c' then
      match enc with
      | [] => ([], index + 1)
      | _ :: enc => searchEnc chr0 enc (index + 1)
    else searchEnc chr0 enc (index + 1)

/-- The loop for the further characters of an operator, with `t_index` and `tok_enc_index`. -/
def matchEnc : List Char → Nat → Nat → Cursor → Cursor × Nat
  | how :: c :: enc, tIndex, index, lex =>
    if how = 'c' ∨ how = 'e' then
      if lex.chr0 = some c.toNat then
        if how = 'e' then (nextChar lex, tIndex + 1)
        else matchEnc enc (tIndex + 1) (tIndex + 1) (nextChar lex)
      else if how = 'c' then (lex, index)
      else matchEnc enc (tIndex + 1) index lex
    else (lex, index)
  | _, _, index, lex => (lex, index)

/-- A delimiter or an operator, from what has been found in `tok_enc`. -/
def operatorAt (lex : Cursor) (index : Nat) : List Char → Scanned
  | [] => ⟨lex, .invalid, []⟩
  | t :: enc =>
    if t = '!' then
      if lex.chr0 = some '='.toNat then ⟨nextChar lex, .opNotEqual, []⟩ else ⟨lex, .invalid, []⟩
    else if t = '.' then
      if lex.chr0 = some '.'.toNat ∧ lex.chr1 = some '.'.toNat then
        ⟨nextChar (nextChar lex), .ellipsis, []⟩
      else ⟨lex, .delPeriod, []⟩
    else
      let (lex, index) := matchEnc enc index index lex
      ⟨lex, tokEncKind.getD index .invalid, []⟩

/-- A delimiter or an operator. -/
def readOperator (lex : Cursor) : Scanned :=
  let (enc, index) := searchEnc lex.chr0 tokEnc 0
  operatorAt (nextChar lex) index enc

/-- What a token adds to `nested_bracket_level`. -/
def bracketDelta : TokenKind → Int
  | .delParenOpen | .delBracketOpen | .delBraceOpen => 1
  | .delParenClose | .delBracketClose | .delBraceClose => -1
  | _ => 0

/-- A token that is neither a layout token nor the end. It may raise. -/
def readToken (optimiseValue : Nat) (lex : Cursor) (nestedBracketLevel : Int) : Option Scanned :=
  if isStringOrBytes lex then readStrings lex nestedBracketLevel
  else if charIs isHeadOfIdentifier lex.chr0 then some (readName optimiseValue lex)
  else if charIs isDigit lex.chr0 ∨ (charIs (isOneOf ['.']) lex.chr0 ∧ charIs isDigit lex.chr1) then
    some (readNumber lex)
  else some (readOperator lex)

def Lexer.indentTop (lex : Lexer) : Nat := lex.indentLevel.headD 0

/-- The loop that pops the levels that a line leaves: the levels that are kept, and `emit_dent`. -/
def popLevels (numSpaces : Nat) : List Nat → Int → List Nat × Int
  | [], emitDent => ([], emitDent)
  | top :: levels, emitDent =>
    if numSpaces < top then popLevels numSpaces levels (emitDent - 1) else (top :: levels, emitDent)

/-- The branch of `mp_lexer_to_next` for a new logical line. A level has 16 bits. -/
def newLine (wordBits : Nat) (lex : Lexer) : Lexer :=
  let numSpaces := ((lex.chars.column - 1) % 2 ^ wordBits).toNat
  if numSpaces = lex.indentTop then { lex with tokKind := .newline }
  else if numSpaces > lex.indentTop then
    { lex with
      tokKind := .newline
      indentLevel := numSpaces % 2 ^ 16 :: lex.indentLevel
      emitDent := lex.emitDent + 1 }
  else
    let (levels, emitDent) := popLevels numSpaces lex.indentLevel lex.emitDent
    { lex with
      tokKind := if numSpaces = levels.headD 0 then .newline else .dedentMismatch
      indentLevel := levels
      emitDent := emitDent }

/-- `mp_lexer_to_next`. It may raise. -/
def mpLexerToNext (wordBits optimiseValue : Nat) (before : Lexer) : Option Lexer :=
  let (hadPhysicalNewline, chars) :=
    skipWhitespace before.chars before.nestedBracketLevel false
  let lex := { before with
    chars := chars
    vstr := []
    tokLine := chars.line
    tokColumn := (chars.column % 2 ^ wordBits).toNat }
  if lex.emitDent < 0 then
    some { lex with tokKind := .dedent, emitDent := lex.emitDent + 1 }
  else if 0 < lex.emitDent then
    some { lex with tokKind := .indent, emitDent := lex.emitDent - 1 }
  else if hadPhysicalNewline ∧ lex.nestedBracketLevel = 0 then some (newLine wordBits lex)
  else if chars.isEnd then some { lex with tokKind := .endMarker }
  else
    (readToken optimiseValue chars lex.nestedBracketLevel).map fun tok =>
      { lex with
        chars := tok.lex
        tokKind := tok.kind
        vstr := tok.vstr
        nestedBracketLevel := lex.nestedBracketLevel + bracketDelta tok.kind }

/-- The cursor on a text, after the three dummy characters. -/
def startCursor (text : List Nat) : Cursor :=
  nextChar (nextChar (nextChar
    { chr0 := some 0, chr1 := some 0, chr2 := some 0, rest := text, line := 1, column := -2,
      joined := false }))

/-- The lexer before its first token, where the fields of a token are not set yet. -/
def startLexer (text : List Nat) : Lexer where
  chars := startCursor text
  emitDent := 0
  nestedBracketLevel := 0
  indentLevel := [0]
  tokLine := 0
  tokColumn := 0
  tokKind := .newline
  vstr := []

def mpLexerNew (wordBits optimiseValue : Nat) (text : List Nat) : Option Lexer :=
  (mpLexerToNext wordBits optimiseValue (startLexer text)).map fun lex =>
    if lex.tokColumn ≠ 1 then { lex with tokKind := .indent } else lex

end MultiPython.Parse
