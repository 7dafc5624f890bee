import MultiPython.Parse.Progress
import MultiPython.Parse.Tokens
import MultiPython.Str.Unicode

/-!
# Strings that are printed and read back

`uni_print_quoted` of `py/objstrunicode.c` and `mp_str_print_quoted` of `py/objstr.c`, and what
the lexer makes of the text. Each character is printed as a piece that takes the lexer one
round, and none of the pieces starts with the quote.
-/

namespace MultiPython.Parse

open Logic Str List

/-! ## The printers -/

def intBufSize (wordBits : Nat) : Nat := wordBits / 8 * 4

/-- The loop of `mp_print_int`, which fills its buffer from the end. -/
def printDigits (base baseChar : Nat) : Nat → Nat → List Nat → List Nat
  | 0, _, b => b
  | room + 1, x, b =>
    let c := x % base
    let b := (if 10 ≤ c then c + (baseChar - 10) else c + '0'.toNat) :: b
    if x / base = 0 then b else printDigits base baseChar room (x / base) b

/-- `mp_print_strn` with the text at the right. -/
def mpPrintStrn (str : List Nat) (fill width : Nat) : List Nat :=
  List.replicate (width - str.length) fill ++ str

/-- `mp_print_int` for a number without a sign. -/
def mpPrintInt (wordBits x base baseChar fill width : Nat) : List Nat :=
  let b := if x = 0 then ['0'.toNat] else printDigits base baseChar (intBufSize wordBits) x []
  mpPrintStrn b fill width

/-- The format `%02x`, `%04x` or `%08x`. -/
def printHex (wordBits width x : Nat) : List Nat := mpPrintInt wordBits x 16 'a'.toNat '0'.toNat width

/-- Which quotes the text has; the scan stops at a double one. -/
def scanQuotes : Bool → List Nat → Bool × Bool
  | hasSingle, [] => (hasSingle, false)
  | hasSingle, c :: rest =>
    if c = singleQuote then scanQuotes true rest
    else if c = doubleQuote then (hasSingle, true)
    else scanQuotes hasSingle rest

/-- The `quote_char` of both printers. -/
def quoteCharFor (strData : List Nat) : Nat :=
  let (hasSingle, hasDouble) := scanQuotes false strData
  if hasSingle ∧ ¬hasDouble then doubleQuote else singleQuote

/-- An escape of one letter. -/
def printEscape (c : Char) : List Nat := [backslash, c.toNat]

/-- What `uni_print_quoted` prints for a character. -/
def uniPrintChar (wordBits quoteChar ch : Nat) : List Nat :=
  if ch = quoteChar then [backslash, quoteChar]
  else if ch = backslash then [backslash, backslash]
  else if 32 ≤ ch ∧ ch ≤ 126 then [ch]
  else if ch = lineFeed then printEscape 'n'
  else if ch = carriageReturn then printEscape 'r'
  else if ch = tabulator then printEscape 't'
  else if ch < 0x100 then printEscape 'x' ++ printHex wordBits 2 ch
  else if ch < 0x10000 then printEscape 'u' ++ printHex wordBits 4 ch
  else printEscape 'U' ++ printHex wordBits 8 ch

/-- `uni_print_quoted`, which is what `repr` prints for a `str`. -/
def uniPrintQuoted (wordBits : Nat) (strData : List Nat) : List Nat :=
  let quoteChar := quoteCharFor strData
  [quoteChar] ++ (utf8Decode strData).flatMap (uniPrintChar wordBits quoteChar) ++ [quoteChar]

/-- What `mp_str_print_quoted` prints for a byte. -/
def strPrintByte (wordBits quoteChar : Nat) (isBytes : Bool) (s : Nat) : List Nat :=
  if s = quoteChar then [backslash, quoteChar]
  else if s = backslash then [backslash, backslash]
  else if 0x20 ≤ s ∧ s ≠ 0x7f ∧ (isBytes = false ∨ s < 0x80) then [s]
  else if s = lineFeed then printEscape 'n'
  else if s = carriageReturn then printEscape 'r'
  else if s = tabulator then printEscape 't'
  else printEscape 'x' ++ printHex wordBits 2 s

def mpStrPrintQuoted (wordBits : Nat) (strData : List Nat) (isBytes : Bool) : List Nat :=
  let quoteChar := quoteCharFor strData
  [quoteChar] ++ strData.flatMap (strPrintByte wordBits quoteChar isBytes) ++ [quoteChar]

/-- `str_print`, which is what `repr` prints for a `bytes` object. -/
def strPrint (wordBits : Nat) (strData : List Nat) : List Nat :=
  ['b'.toNat] ++ mpStrPrintQuoted wordBits strData true

/-! ## Hexadecimal digits -/

/-- The character of a digit. -/
def hexChar (digit : Nat) : Nat := if 10 ≤ digit then digit + ('a'.toNat - 10) else digit + '0'.toNat

/-- The number that digits stand for, after others. -/
def fromHex (num : Nat) (digits : List Nat) : Nat := digits.foldl (fun num digit => num * 16 + digit) num

theorem fromHex_replicate_zero (count : Nat) (digits : List Nat) :
    fromHex 0 (List.replicate count 0 ++ digits) = fromHex 0 digits := by
  induction count with
  | zero => rfl
  | succ count ih => simpa [fromHex, replicate_succ] using ih

theorem printDigits_spec {room x : Nat} (positive : 0 < x) (small : x < 16 ^ room) (b : List Nat) :
    ∃ digits : List Nat, printDigits 16 'a'.toNat room x b = digits.map hexChar ++ b ∧
      (∀ digit ∈ digits, digit < 16) ∧ fromHex 0 digits = x ∧
      ∀ width, x < 16 ^ width → digits.length ≤ width := by
  induction room generalizing x b with
  | zero =>
    rw [Nat.pow_zero] at small
    omega
  | succ room ih =>
    have digit : x % 16 < 16 := Nat.mod_lt _ (by decide)
    rw [printDigits]
    by_cases last : x / 16 = 0
    · refine ⟨[x % 16], by simp [last, hexChar], by simpa using digit, ?_, fun width fits => ?_⟩
      · simp only [fromHex, foldl_cons, foldl_nil]
        omega
      · rcases width with _ | width
        · rw [Nat.pow_zero] at fits
          omega
        · simp
    · obtain ⟨digits, printed, are, value, length⟩ := ih
        (Nat.pos_of_ne_zero last) (by rw [Nat.pow_succ] at small; omega) (hexChar (x % 16) :: b)
      refine ⟨digits ++ [x % 16], ?_, ?_, ?_, fun width fits => ?_⟩
      · simp only [last, if_false, map_append, append_assoc]
        exact printed
      · intro d member
        rcases mem_append.mp member with there | isLast
        · exact are d there
        · rw [mem_singleton.mp isLast]
          exact digit
      · have split : fromHex 0 (digits ++ [x % 16]) = fromHex 0 digits * 16 + x % 16 := by
          simp [fromHex]
        rw [split, value]
        omega
      · rcases width with _ | width
        · rw [Nat.pow_zero] at fits
          omega
        · have shorter := length width (by rw [Nat.pow_succ] at fits; omega)
          simpa using shorter

theorem printHex_spec {wordBits width x : Nat} (word : 32 ≤ wordBits) (some_ : 0 < width)
    (most : width ≤ 8) (fits : x < 16 ^ width) :
    ∃ digits : List Nat, printHex wordBits width x = digits.map hexChar ∧ digits.length = width ∧
      (∀ digit ∈ digits, digit < 16) ∧ fromHex 0 digits = x := by
  obtain ⟨digits, printed, are, value, length⟩ : ∃ digits : List Nat,
      (if x = 0 then ['0'.toNat] else printDigits 16 'a'.toNat (intBufSize wordBits) x []) =
        digits.map hexChar ∧ (∀ digit ∈ digits, digit < 16) ∧ fromHex 0 digits = x ∧
        digits.length ≤ width := by
    by_cases zero : x = 0
    · exact ⟨[0], by simp [zero, hexChar], by simp, by simp [fromHex, zero], some_⟩
    · have room : x < 16 ^ intBufSize wordBits := by
        refine fits.trans_le (Nat.pow_le_pow_right (by decide) ?_)
        have size : intBufSize wordBits = wordBits / 8 * 4 := rfl
        omega
      obtain ⟨digits, printed, are, value, length⟩ :=
        printDigits_spec (Nat.pos_of_ne_zero zero) room []
      exact ⟨digits, by simpa [zero] using printed, are, value, length width fits⟩
  refine ⟨replicate (width - digits.length) 0 ++ digits, ?_, ?_, ?_, ?_⟩
  · simp only [printHex, mpPrintInt, mpPrintStrn]
    rw [printed]
    simp [hexChar]
  · rw [length_append, length_replicate]
    omega
  · intro digit member
    rcases mem_append.mp member with zero | there
    · rw [eq_of_mem_replicate zero]
      decide
    · exact are digit there
  · rw [fromHex_replicate_zero, value]

/-! ## The lexer on text without newlines -/

/-- The cursor is in front of this text, which is the rest of the file. -/
structure Stands (text : List Nat) (lex : Cursor) : Prop where
  plain : ∀ c ∈ text, c ≠ lineFeed ∧ c ≠ carriageReturn
  chr0 : lex.chr0 = (text ++ [lineFeed])[0]?
  chr1 : lex.chr1 = (text ++ [lineFeed])[1]?
  chr2 : lex.chr2 = (text ++ [lineFeed])[2]?
  rest : lex.rest = text.drop 3

variable {lex : Cursor} {text : List Nat} {c : Nat}

theorem Stands.next (stands : Stands (c :: text) lex) : Stands text (nextChar lex) := by
  obtain ⟨chr0, chr1, chr2, rest, line, column, joined⟩ := lex
  obtain ⟨plain, rfl, rfl, rfl, rfl⟩ := stands
  refine ⟨fun d member => plain d (mem_cons_of_mem _ member), by simp [nextChar], ?_, ?_, ?_⟩
  all_goals
    rcases text with _ | ⟨c1, _ | ⟨c2, _ | ⟨c3, text⟩⟩⟩
    · simp [nextChar, refill, endNewline]
    · simp [nextChar, refill, endNewline]
    · have notReturn : c2 ≠ carriageReturn := (plain c2 (by simp)).2
      have notLine : c2 ≠ lineFeed := (plain c2 (by simp)).1
      simp [nextChar, refill, endNewline, notReturn, notLine]
    · have notReturn : c2 ≠ carriageReturn := (plain c2 (by simp)).2
      simp [nextChar, refill, endNewline, notReturn]

theorem Stands.here (stands : Stands (c :: text) lex) : lex.chr0 = some c := stands.chr0

theorem Stands.not_line (stands : Stands (c :: text) lex) : c ≠ lineFeed :=
  (stands.plain c mem_cons_self).1

theorem stands_start (plain : ∀ c ∈ text, c ≠ lineFeed ∧ c ≠ carriageReturn) :
    Stands text (startCursor text) := by
  have dummy : Stands (0 :: 0 :: 0 :: text)
      { chr0 := some 0, chr1 := some 0, chr2 := some 0, rest := text, line := 1, column := -2,
        joined := false } :=
    ⟨by simpa using plain, rfl, rfl, rfl, rfl⟩
  exact dummy.next.next.next

theorem hexChar_read : ∀ digit < 16,
    isXdigit (hexChar digit) = true ∧ xdigitValue (hexChar digit) = digit := by decide

theorem getHex_stands {digits : List Nat} (are : ∀ digit ∈ digits, digit < 16)
    (stands : Stands (c :: (digits.map hexChar ++ text)) lex) (num : Nat) :
    (getHex digits.length lex num).2 = some (fromHex num digits) ∧
      Stands text (nextChar (getHex digits.length lex num).1) := by
  induction digits generalizing lex c num with
  | nil => exact ⟨rfl, stands.next⟩
  | cons digit digits ih =>
    have next : Stands (hexChar digit :: (digits.map hexChar ++ text)) (nextChar lex) := stands.next
    obtain ⟨isDigit, value⟩ := hexChar_read digit (are digit mem_cons_self)
    have later := ih (fun d member => are d (mem_cons_of_mem _ member)) next
      (num * 16 + digit)
    simp only [length_cons, getHex, next.here, isDigit, value, if_true]
    exact later

/-! ## One round of the literal -/

/-- A literal of this kind with these contents so far, in front of this text. -/
structure InLiteral (kind : TokenKind) (vstr text : List Nat) (lit : Literal) : Prop where
  stands : Stands text lit.lex
  kind : lit.kind = kind
  vstr : lit.vstr = vstr
  open_ : lit.nClosing = 0

/-- The piece is read in one round, and gives these bytes. -/
def ReadsPiece (quoteChar : Nat) (kind : TokenKind) (piece bytes : List Nat) : Prop :=
  ∀ ⦃vstr text : List Nat⦄ ⦃lit : Literal⦄, InLiteral kind vstr (piece ++ text) lit →
    ∃ after, literalBody quoteChar 1 false (some lit) = some (some after) ∧
      InLiteral kind (vstr ++ bytes) text after

variable {quoteChar : Nat} {kind : TokenKind}

theorem readsPiece_plain (notQuote : c ≠ quoteChar) (notEscape : c ≠ backslash) :
    ReadsPiece quoteChar kind [c] [c] := by
  rintro vstr text lit ⟨stands, isKind, isVstr, isOpen⟩
  refine ⟨{ lit with lex := nextChar lit.lex, vstr := lit.vstr ++ [c], nClosing := 0 }, ?_,
    ⟨stands.next, isKind, by rw [isVstr], rfl⟩⟩
  simp [literalBody, stands.here, stands.not_line, isOpen, notQuote, notEscape]

theorem readsPiece_escape {added : Nat} (notQuote : quoteChar ≠ backslash) (escape : List Nat)
    (fits : kind = .string ∧ added < 0x110000 ∨
      kind = .bytes ∧ added < 0x100)
    (parses : ∀ ⦃text : List Nat⦄ ⦃lit : Literal⦄, Stands (escape ++ text) lit.lex → lit.kind = kind →
      ∃ lex, parseEscape false lit = some ({ lit with lex := lex }, some added) ∧
        Stands text (nextChar lex)) :
    ReadsPiece quoteChar kind (backslash :: escape)
      (if kind = .string then charBytes added else [added]) := by
  rintro vstr text lit ⟨stands, isKind, isVstr, isOpen⟩
  obtain ⟨lex, parsed, after⟩ := @parses text { lit with lex := nextChar lit.lex, nClosing := 0 }
    stands.next isKind
  have other : backslash ≠ quoteChar := Ne.symm notQuote
  refine ⟨{ lex := nextChar lex
            kind := kind
            vstr := vstr ++ if kind = .string then charBytes added else [added]
            nClosing := 0 }, ?_, ⟨after, rfl, rfl, rfl⟩⟩
  simp only [literalBody, stands.here, isOpen, parsed]
  rcases fits with ⟨rfl, small⟩ | ⟨rfl, small⟩
  · simp [stands.not_line, other, addEscaped, isKind, small, isVstr]
  · simp [stands.not_line, other, addEscaped, isKind, small, isVstr]

theorem parseEscape_plain {e added : Nat} (plain : plainEscapes.lookup e = some added)
    {lit : Literal} (stands : Stands ([e] ++ text) lit.lex) :
    parseEscape false lit = some ({ lit with lex := lit.lex }, some added) ∧
      Stands text (nextChar lit.lex) := by
  refine ⟨?_, stands.next⟩
  have here : lit.lex.chr0 = some e := stands.here
  simp [parseEscape, here, stands.not_line, plain]

/-- An escape with hexadecimal digits. -/
theorem parseEscape_hex {e : Nat} {digits : List Nat} (length : digits.length = hexDigits e)
    (are : ∀ digit ∈ digits, digit < 16) (small : fromHex 0 digits < 0x110000)
    {lit : Literal} (letter : e = 'x'.toNat ∨ (e = 'u'.toNat ∨ e = 'U'.toNat) ∧ lit.kind ≠ .bytes)
    (stands : Stands ((e :: digits.map hexChar) ++ text) lit.lex) :
    ∃ lex, parseEscape false lit = some ({ lit with lex := lex }, some (fromHex 0 digits)) ∧
      Stands text (nextChar lex) := by
  have here : lit.lex.chr0 = some e := stands.here
  obtain ⟨value, after⟩ := getHex_stands are stands 0
  rw [length] at value after
  refine ⟨(getHex (hexDigits e) lit.lex 0).1, ?_, after⟩
  have hex : hexEscape lit e =
      ({ lit with lex := (getHex (hexDigits e) lit.lex 0).1 }, some (fromHex 0 digits)) := by
    unfold hexEscape
    generalize getHex (hexDigits e) lit.lex 0 = result at value
    obtain ⟨lex, num⟩ := result
    obtain rfl : num = some (fromHex 0 digits) := value
    simp only
    rw [if_neg (by omega)]
  have notPlain : plainEscapes.lookup e = none := by
    rcases letter with rfl | ⟨rfl | rfl, _⟩ <;> decide
  have isLetter : isOneOf ['x', 'u', 'U'] e = true := by
    rcases letter with rfl | ⟨rfl | rfl, _⟩ <;> decide
  have notVerbatim : ¬(isOneOf ['u', 'U'] e = true ∧ lit.kind = .bytes) := by
    rintro ⟨unicode, bytes⟩
    rcases letter with rfl | ⟨_, notBytes⟩
    · exact absurd unicode (by decide)
    · exact notBytes bytes
  simp only [parseEscape, here, Bool.false_eq_true, if_false, stands.not_line, notPlain, notVerbatim,
    isLetter, if_true, hex]

/-! ## What the printers print is read -/

/-- A piece of text in quotes that stands for these bytes. -/
structure Piece (quoteChar : Nat) (kind : TokenKind) (piece bytes : List Nat) : Prop where
  first : ∃ c rest, piece = c :: rest ∧ c ≠ quoteChar
  plain : ∀ c ∈ piece, c ≠ lineFeed ∧ c ≠ carriageReturn
  reads : ReadsPiece quoteChar kind piece bytes

theorem isQuote_ne (quote : isQuote quoteChar = true) : quoteChar ≠ backslash := by
  rintro rfl
  cases quote

theorem plain_of_printable (printable : 32 ≤ c) : c ≠ lineFeed ∧ c ≠ carriageReturn := by
  have values : lineFeed = 10 ∧ carriageReturn = 13 := ⟨rfl, rfl⟩
  omega

theorem piece_plain (notQuote : c ≠ quoteChar) (notEscape : c ≠ backslash) (printable : 32 ≤ c) :
    Piece quoteChar kind [c] [c] := by
  refine ⟨⟨c, [], rfl, notQuote⟩, ?_, readsPiece_plain notQuote notEscape⟩
  intro d member
  obtain rfl := mem_singleton.mp member
  exact plain_of_printable printable

section

variable (quote : isQuote quoteChar = true)

include quote

theorem piece_escape {e added : Nat} (plain : plainEscapes.lookup e = some added)
    (printable : 32 ≤ e) (ascii : added < 0x80) (literal : kind = .string ∨ kind = .bytes) :
    Piece quoteChar kind [backslash, e] [added] := by
  refine ⟨⟨_, _, rfl, (isQuote_ne quote).symm⟩, ?_, ?_⟩
  · intro d member
    rcases mem_pair.mp member with rfl | rfl
    · decide
    · exact plain_of_printable printable
  · have fits : kind = .string ∧ added < 0x110000 ∨ kind = .bytes ∧ added < 0x100 :=
      literal.imp (fun is => ⟨is, by omega⟩) fun is => ⟨is, by omega⟩
    have reads := readsPiece_escape (isQuote_ne quote) [e] fits fun text lit stands _ =>
      ⟨lit.lex, parseEscape_plain plain stands⟩
    have bytes : (if kind = .string then charBytes added else [added]) = [added] := by
      rw [charBytes, if_pos ascii, ite_self]
    rwa [bytes] at reads

theorem piece_quote (literal : kind = .string ∨ kind = .bytes) :
    Piece quoteChar kind [backslash, quoteChar] [quoteChar] := by
  have quotes : quoteChar = singleQuote ∨ quoteChar = doubleQuote := by simpa [isQuote] using quote
  rcases quotes with rfl | rfl
  · exact piece_escape quote rfl (by decide) (by decide) literal
  · exact piece_escape quote rfl (by decide) (by decide) literal

theorem charBytes_quote : charBytes quoteChar = [quoteChar] := by
  have quotes : quoteChar = singleQuote ∨ quoteChar = doubleQuote := by simpa [isQuote] using quote
  rcases quotes with rfl | rfl <;> rfl

/-- An escape with hexadecimal digits. -/
theorem piece_hex {wordBits added : Nat} (word : 32 ≤ wordBits) {e : Char}
    (letter : e = 'x' ∨ (e = 'u' ∨ e = 'U') ∧ kind ≠ .bytes) (fits : added < 16 ^ hexDigits e.toNat)
    (small : kind = .string ∧ added < 0x110000 ∨ kind = .bytes ∧ added < 0x100) :
    Piece quoteChar kind (printEscape e ++ printHex wordBits (hexDigits e.toNat) added)
      (if kind = .string then charBytes added else [added]) := by
  have width : 0 < hexDigits e.toNat ∧ hexDigits e.toNat ≤ 8 := by
    unfold hexDigits
    split_ifs <;> omega
  obtain ⟨digits, printed, length, are, value⟩ := printHex_spec word width.1 width.2 fits
  rw [printed]
  refine ⟨⟨_, _, rfl, (isQuote_ne quote).symm⟩, ?_, ?_⟩
  · intro d member
    have hexPlain : ∀ digit < 16, hexChar digit ≠ lineFeed ∧ hexChar digit ≠ carriageReturn := by
      decide
    have letters : ∀ d ∈ printEscape e, d ≠ lineFeed ∧ d ≠ carriageReturn := by
      rcases letter with rfl | ⟨rfl | rfl, _⟩ <;> decide
    rcases mem_append.mp member with first | mapped
    · exact letters d first
    · obtain ⟨digit, there, rfl⟩ := mem_map.mp mapped
      exact hexPlain digit (are digit there)
  · refine readsPiece_escape (isQuote_ne quote) (e.toNat :: digits.map hexChar) small ?_
    intro text lit stands isKind
    have small : fromHex 0 digits < 0x110000 := by
      rw [value]
      rcases small with ⟨_, small⟩ | ⟨_, small⟩ <;> omega
    have letterIs : e.toNat = 'x'.toNat ∨
        (e.toNat = 'u'.toNat ∨ e.toNat = 'U'.toNat) ∧ lit.kind ≠ .bytes := by
      rw [isKind]
      rcases letter with rfl | ⟨rfl | rfl, notBytes⟩
      · exact .inl rfl
      · exact .inr ⟨.inl rfl, notBytes⟩
      · exact .inr ⟨.inr rfl, notBytes⟩
    have parsed := parseEscape_hex length are small letterIs stands
    rwa [value] at parsed

theorem uniPrintChar_piece {wordBits ch : Nat} (word : 32 ≤ wordBits) (bound : ch < 0x110000) :
    Piece quoteChar .string (uniPrintChar wordBits quoteChar ch) (charBytes ch) := by
  unfold uniPrintChar
  split_ifs with same isBackslash printable newline return_ tab byte short
  · rw [same, charBytes_quote quote]
    exact piece_quote quote (.inl rfl)
  · rw [isBackslash]
    exact piece_escape quote rfl (by decide) (by decide) (.inl rfl)
  · rw [charBytes, if_pos (by omega)]
    exact piece_plain same isBackslash printable.1
  · rw [newline]
    exact piece_escape quote rfl (by decide) (by decide) (.inl rfl)
  · rw [return_]
    exact piece_escape quote rfl (by decide) (by decide) (.inl rfl)
  · rw [tab]
    exact piece_escape quote rfl (by decide) (by decide) (.inl rfl)
  · exact piece_hex quote word (.inl rfl) byte (.inl ⟨rfl, bound⟩)
  · exact piece_hex quote word (.inr ⟨.inl rfl, by decide⟩) short (.inl ⟨rfl, bound⟩)
  · exact piece_hex quote word (.inr ⟨.inr rfl, by decide⟩)
      (bound.trans (by decide)) (.inl ⟨rfl, bound⟩)

theorem strPrintByte_piece {wordBits s : Nat} (word : 32 ≤ wordBits) (bound : s < 0x100) :
    Piece quoteChar .bytes (strPrintByte wordBits quoteChar true s) [s] := by
  unfold strPrintByte
  split_ifs with same isBackslash printable newline return_ tab
  · rw [same]
    exact piece_quote quote (.inr rfl)
  · rw [isBackslash]
    exact piece_escape quote rfl (by decide) (by decide) (.inr rfl)
  · exact piece_plain same isBackslash printable.1
  · rw [newline]
    exact piece_escape quote rfl (by decide) (by decide) (.inr rfl)
  · rw [return_]
    exact piece_escape quote rfl (by decide) (by decide) (.inr rfl)
  · rw [tab]
    exact piece_escape quote rfl (by decide) (by decide) (.inr rfl)
  · exact piece_hex quote word (.inl rfl) bound (.inr ⟨rfl, bound⟩)

end

/-! ## Whole literals -/

variable {ι : Type} {print bytes : ι → List Nat} {items : List ι} {contents : List Nat}

theorem literal_pieces (pieces : ∀ item ∈ items, Piece quoteChar kind (print item) (bytes item))
    {lit : Literal} {vstr : List Nat}
    (reading : InLiteral kind vstr (items.flatMap print ++ text) lit) :
    ∃ after, whileSome (literalBody quoteChar 1 false) literalLeft (some lit) =
        whileSome (literalBody quoteChar 1 false) literalLeft (some after) ∧
      InLiteral kind (vstr ++ items.flatMap bytes) text after := by
  induction items generalizing lit vstr with
  | nil => exact ⟨lit, rfl, by simpa using reading⟩
  | cons item items ih =>
    rw [flatMap_cons, append_assoc] at reading
    obtain ⟨next, round, readingNext⟩ := (pieces item mem_cons_self).reads reading
    obtain ⟨after, loops, readingAfter⟩ := ih
      (fun other member => pieces other (mem_cons_of_mem _ member)) readingNext
    refine ⟨after, ?_, ?_⟩
    · rw [whileSome_of_some literalBody_left round, loops]
    · rwa [flatMap_cons, ← append_assoc]

/-- A literal in quotes, whose pieces stand for these bytes, with nothing after it. -/
theorem parseStringLiteral_pieces (quote : isQuote quoteChar = true)
    (pieces : ∀ item ∈ items, Piece quoteChar kind (print item) (bytes item))
    (stands : Stands (quoteChar :: (items.flatMap print ++ [quoteChar])) lex) :
    ∃ lit, parseStringLiteral lex kind [] false = some lit ∧ Stands [] lit.lex ∧ lit.kind = kind ∧
      lit.vstr = items.flatMap bytes := by
  have quotes : quoteChar = singleQuote ∨ quoteChar = doubleQuote := by simpa [isQuote] using quote
  have isChar : (if lex.chr0 = some doubleQuote then doubleQuote else singleQuote) = quoteChar := by
    rw [stands.here]
    rcases quotes with rfl | rfl <;> rfl
  have inner := stands.next
  -- Two quotes after each other are the whole literal, which is followed by a newline.
  have notTriple : ¬((nextChar lex).chr0 = some quoteChar ∧ (nextChar lex).chr1 = some quoteChar) := by
    rintro ⟨first, second⟩
    cases items with
    | nil =>
      rw [inner.chr1] at second
      simp only [flatMap_nil, nil_append, cons_append, getElem?_cons_succ,
        getElem?_cons_zero, Option.some.injEq] at second
      rcases quotes with rfl | rfl <;> cases second
    | cons item items =>
      obtain ⟨c, rest, piece, other⟩ := (pieces item mem_cons_self).first
      rw [inner.chr0, flatMap_cons, piece] at first
      simp only [cons_append, getElem?_cons_zero, Option.some.injEq] at first
      exact other first
  have opened : InLiteral kind [] (items.flatMap print ++ [quoteChar]) ⟨nextChar lex, kind, [], 0⟩ :=
    ⟨inner, rfl, rfl, rfl⟩
  obtain ⟨last, loops, reading⟩ := literal_pieces pieces opened
  have closes : literalBody quoteChar 1 false (some last) = some (some { last with
      lex := nextChar last.lex
      vstr := last.vstr ++ charBytes quoteChar
      nClosing := last.nClosing + 1 }) := by
    simp [literalBody, reading.stands.here, reading.stands.not_line, reading.open_]
  have after := reading.stands.next
  have stops : literalBody quoteChar 1 false (some { last with
      lex := nextChar last.lex
      vstr := last.vstr ++ charBytes quoteChar
      nClosing := last.nClosing + 1 }) = none := by
    have line : last.lex.chr1 = some lineFeed := after.chr0
    simp [literalBody, line]
  refine ⟨{ lex := nextChar last.lex, kind := kind, vstr := items.flatMap bytes, nClosing := 1 }, ?_,
    after, rfl, rfl⟩
  simp only [parseStringLiteral, isChar]
  rw [if_neg notTriple, parseQuoted, loops, whileSome_of_some literalBody_left closes,
    whileSome_of_none stops]
  simp [reading.open_, reading.vstr, reading.kind, charBytes_quote quote]

/-! ## The only token of the text -/

/-- The lexer reads one token of this kind with these contents, and then the text ends. -/
def ReadsBack (wordBits optimiseValue : Nat) (kind : TokenKind) (contents text : List Nat) : Prop :=
  ∃ token newline last, mpLexerNew wordBits optimiseValue text = some token ∧
    token.tokKind = kind ∧ token.vstr = contents ∧
    mpLexerToNext wordBits optimiseValue token = some newline ∧ newline.tokKind = .newline ∧
    mpLexerToNext wordBits optimiseValue newline = some last ∧ last.tokKind = .endMarker

/-- The type code of a literal of this kind that is not raw. -/
def typeCodeOf (kind : TokenKind) : List Nat := if kind = .bytes then ['b'.toNat] else []

/-- A literal is the only one at the end of the text. -/
theorem readStrings_pieces (quote : isQuote quoteChar = true) (literal : kind = .string ∨ kind = .bytes)
    (pieces : ∀ item ∈ items, Piece quoteChar kind (print item) (bytes item))
    (stands : Stands (typeCodeOf kind ++ quoteChar :: (items.flatMap print ++ [quoteChar])) lex) :
    isStringOrBytes lex = true ∧
      ∃ after, readStrings lex 0 = some ⟨after, kind, items.flatMap bytes⟩ ∧ Stands [] after := by
  have quotes : quoteChar = singleQuote ∨ quoteChar = doubleQuote := by simpa [isQuote] using quote
  obtain ⟨isLiteral, count, code, opened⟩ : isStringOrBytes lex = true ∧
      ∃ count, typeCode lex = (kind, false, count) ∧
        Stands (quoteChar :: (items.flatMap print ++ [quoteChar])) (Nat.iterate nextChar count lex) := by
    rcases literal with rfl | rfl
    · have stands : Stands (quoteChar :: (items.flatMap print ++ [quoteChar])) lex := stands
      have here := stands.here
      refine ⟨by simp [isStringOrBytes, here, charIs, quote], 0, ?_, stands⟩
      rcases quotes with rfl | rfl <;> simp [typeCode, here, charIs, isOneOf]
    · have stands : Stands ('b'.toNat :: quoteChar :: (items.flatMap print ++ [quoteChar])) lex := stands
      have here := stands.here
      have next : lex.chr1 = some quoteChar := stands.next.here
      refine ⟨by simp [isStringOrBytes, here, next, charIs, quote, isOneOf], 1, ?_, stands.next⟩
      rcases quotes with rfl | rfl <;> simp [typeCode, here, next, charIs, isOneOf]
  obtain ⟨lit, parsed, after, isKind, isVstr⟩ := parseStringLiteral_pieces quote pieces opened
  refine ⟨isLiteral, lit.lex, ?_, after⟩
  have line : lit.lex.chr0 = some lineFeed := after.chr0
  have stays : skipWhitespace lit.lex 0 true = (false, lit.lex) :=
    whileSome_of_none (by simp [skipBody, line, Cursor.isEnd])
  have first : nextLiteral 0 ⟨lex, kind, []⟩ = some ⟨lit.lex, kind, items.flatMap bytes⟩ := by
    simp [nextLiteral, code, parsed, stays, isKind, isVstr]
  have noOther : literalsBody 0 (some ⟨lit.lex, kind, items.flatMap bytes⟩) = none := by
    have notLiteral : isStringOrBytes lit.lex = false := by
      simp [isStringOrBytes, line, charIs, isQuote, isOneOf]
    simp [literalsBody, notLiteral]
  rw [readStrings, code, first, whileSome_of_none noOther]

/-- What is printed as pieces in quotes is read back. -/
theorem readsBack_pieces {wordBits : Nat} (word : 32 ≤ wordBits) (optimiseValue : Nat)
    (quote : isQuote quoteChar = true) (literal : kind = .string ∨ kind = .bytes)
    (pieces : ∀ item ∈ items, Piece quoteChar kind (print item) (bytes item)) :
    ReadsBack wordBits optimiseValue kind (items.flatMap bytes)
      (typeCodeOf kind ++ ([quoteChar] ++ items.flatMap print ++ [quoteChar])) := by
  have quotes : quoteChar = singleQuote ∨ quoteChar = doubleQuote := by simpa [isQuote] using quote
  have shape : typeCodeOf kind ++ ([quoteChar] ++ items.flatMap print ++ [quoteChar]) =
      typeCodeOf kind ++ quoteChar :: (items.flatMap print ++ [quoteChar]) := by simp
  rw [shape]
  have plain : ∀ c ∈ typeCodeOf kind ++ quoteChar :: (items.flatMap print ++ [quoteChar]),
      c ≠ lineFeed ∧ c ≠ carriageReturn := by
    have quotePlain : quoteChar ≠ lineFeed ∧ quoteChar ≠ carriageReturn := by
      rcases quotes with rfl | rfl <;> decide
    intro c member
    rcases mem_append.mp member with code | member
    · rcases literal with rfl | rfl
      · cases code
      · rw [mem_singleton.mp code]
        decide
    · rcases mem_cons.mp member with rfl | member
      · exact quotePlain
      · rcases mem_append.mp member with inside | last
        · obtain ⟨item, there, inPiece⟩ := mem_flatMap.mp inside
          exact (pieces item there).plain c inPiece
        · rw [mem_singleton.mp last]
          exact quotePlain
  have stands := stands_start plain
  obtain ⟨isLiteral, after, ran, ends⟩ := readStrings_pieces quote literal pieces stands
  -- The text starts with a type code or a quote, which is no white space.
  obtain ⟨c, here, first⟩ : ∃ c, (startCursor (typeCodeOf kind ++
        quoteChar :: (items.flatMap print ++ [quoteChar]))).chr0 = some c ∧
      (c = 'b'.toNat ∨ c = singleQuote ∨ c = doubleQuote) := by
    rcases literal with rfl | rfl
    · exact ⟨quoteChar, stands.chr0, .inr quotes⟩
    · exact ⟨'b'.toNat, stands.chr0, .inl rfl⟩
  generalize typeCodeOf kind ++ quoteChar :: (items.flatMap print ++ [quoteChar]) = text
    at stands isLiteral ran here ⊢
  have noSpace : skipWhitespace (startCursor text) 0 false = (false, startCursor text) := by
    refine whileSome_of_none ?_
    rcases first with rfl | rfl | rfl <;>
      simp [skipBody, here, Cursor.isEnd, charIs, isSpace, isOneOf, singleQuote, doubleQuote]
  have line : after.chr0 = some lineFeed := ends.chr0
  have last : after.chr1 = none := ends.chr1
  have passes : skipWhitespace after 0 false = (true, nextChar after) := by
    have round : skipBody 0 false (false, after) = some (true, nextChar after) := by
      simp [skipBody, line, Cursor.isEnd]
    have stops : skipBody 0 false (true, nextChar after) = none := by
      simp [skipBody, last, Cursor.isEnd]
    rw [skipWhitespace, whileSome_of_some (fun gives => (skipBody_cases gives).left) round,
      whileSome_of_none stops]
  have nothing : skipWhitespace (nextChar after) 0 false = (false, nextChar after) :=
    whileSome_of_none (by simp [skipBody, last, Cursor.isEnd])
  have column : (nextChar after).column = 1 := by
    show nextColumn after.column after.chr0 = 1
    rw [line, nextColumn, if_pos rfl]
  have noDelta : bracketDelta kind = 0 := by rcases literal with rfl | rfl <;> rfl
  have one : ((1 : Int) % 2 ^ wordBits).toNat = 1 := by
    have large : (1 : Int) < 2 ^ wordBits := one_lt_pow₀ (by decide) (by omega)
    rw [Int.emod_eq_of_lt (by decide) large]
    rfl
  let token : Lexer := { startLexer text with
    chars := after
    tokLine := (startCursor text).line
    tokColumn := 1
    tokKind := kind
    vstr := items.flatMap bytes }
  let newline : Lexer := { token with
    chars := nextChar after
    vstr := []
    tokLine := (nextChar after).line
    tokKind := .newline }
  refine ⟨token, newline, { newline with tokKind := .endMarker }, ?_, rfl, rfl, ?_, rfl, ?_, rfl⟩
  · simp [mpLexerNew, mpLexerToNext, startLexer, noSpace, Cursor.isEnd, here, readToken, isLiteral,
      ran, noDelta, startCursor_column, one, token]
  · simp [mpLexerToNext, token, startLexer, passes, newLine, column, Lexer.indentTop, one, newline]
  · simp [mpLexerToNext, newline, token, startLexer, nothing, Cursor.isEnd, last, column, one]

theorem isQuote_quoteCharFor (strData : List Nat) : isQuote (quoteCharFor strData) = true := by
  unfold quoteCharFor
  simp only
  split_ifs <;> rfl

/-- What `repr` prints for a string, or for bytes, is read back as one token with the same
contents. -/
theorem repr_readsBack {wordBits : Nat} (word : 32 ≤ wordBits) (optimiseValue : Nat) :
    (∀ cps : List Nat, (∀ c ∈ cps, c < 0x110000) →
      ReadsBack wordBits optimiseValue .string (utf8Encode cps)
        (uniPrintQuoted wordBits (utf8Encode cps))) ∧
    ∀ strData : List Nat, (∀ s ∈ strData, s < 0x100) →
      ReadsBack wordBits optimiseValue .bytes strData (strPrint wordBits strData) := by
  constructor
  · intro cps bound
    have quote := isQuote_quoteCharFor (utf8Encode cps)
    have reads := readsBack_pieces word optimiseValue quote (Or.inl rfl)
      fun c member => uniPrintChar_piece quote word (bound c member)
    rw [uniPrintQuoted, utf8Decode_encode bound]
    exact reads
  · intro strData bound
    have quote := isQuote_quoteCharFor strData
    have reads := readsBack_pieces word optimiseValue quote (Or.inr rfl)
      fun s member => strPrintByte_piece quote word (bound s member)
    rw [flatMap_singleton'] at reads
    exact reads

/-- A text with both quotes, a backslash, control characters and characters of every size. -/
theorem repr_readsBack_mixed :
    ReadsBack 32 0 .string (utf8Encode [39, 34, 92, 10, 0, 127, 0xE9, 0x20AC, 0x1F600, 110])
        (uniPrintQuoted 32 (utf8Encode [39, 34, 92, 10, 0, 127, 0xE9, 0x20AC, 0x1F600, 110])) ∧
      ReadsBack 32 0 .bytes [39, 255, 97] (strPrint 32 [39, 255, 97]) :=
  ⟨(repr_readsBack (by decide) 0).1 _ (by decide), (repr_readsBack (by decide) 0).2 _ (by decide)⟩

end MultiPython.Parse
