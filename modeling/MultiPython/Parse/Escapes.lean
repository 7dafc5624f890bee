import MultiPython.Parse.Rest

/-!
# The escapes of literals

What stands between the quotes of a literal is said by a grammar of its bytes: outside of escapes
they stand for themselves, and an escape is an item of its own. `parse_string_literal` takes the
byte after a backslash for a character, and a character for the end of the file.
-/

namespace MultiPython.Parse

open Logic Str List

/-! ## The grammar of literals -/

/-- What the bytes between the quotes are made of. An unrecognized escape is `other`, and a pair of a
raw literal is `pair`; both are known by the byte after the backslash. -/
inductive StringItem where
  | plain (c : Nat)
  | pair (d : Nat)
  | other (d : Nat)
  | removed
  | code (n : Nat)
  | malformed
  | named
deriving DecidableEq

/-- The value of a hexadecimal digit. -/
def hexValue (c : Nat) : Nat := if c ≤ 57 then c - 48 else if c ≤ 70 then c - 55 else c - 87

def hexNumber (digits : List Nat) : Nat := digits.foldl (fun num d => num * 16 + hexValue d) 0

def octalNumber (digits : List Nat) : Nat := digits.foldl (fun num d => num * 8 + (d - 48)) 0

/-- The letters of the escapes with hexadecimal digits; bytes have only one. -/
def IsHexLetter (isBytes : Bool) (e : Nat) : Prop :=
  e = 'x'.toNat ∨ isBytes = false ∧ (e = 'u'.toNat ∨ e = 'U'.toNat)

/-- A run of digits ends here. -/
def Ends (test : Nat → Bool) (rest : List Nat) : Prop := ∀ d, rest.head? = some d → test d = false

/-- The bytes between the quotes as items. There are `count` quotes on each side, and the bytes come
after a run of `closing` quotes that belong to the literal. -/
inductive Body (quote count : Nat) (isBytes isRaw : Bool) :
    Nat → List Nat → List StringItem → Prop where
  | done : Body quote count isBytes isRaw 0 [] []
  | quote {closing rest items} (fewer : closing + 1 < count)
      (after : Body quote count isBytes isRaw (closing + 1) rest items) :
      Body quote count isBytes isRaw closing (quote :: rest) (.plain quote :: items)
  | plain {closing c rest items} (notQuote : c ≠ quote) (notEscape : c ≠ backslash)
      (sameLine : count = 1 → c ≠ lineFeed) (after : Body quote count isBytes isRaw 0 rest items) :
      Body quote count isBytes isRaw closing (c :: rest) (.plain c :: items)
  | pair {closing d rest items} (raw : isRaw = true)
      (after : Body quote count isBytes isRaw 0 rest items) :
      Body quote count isBytes isRaw closing (backslash :: d :: rest) (.pair d :: items)
  | newline {closing rest items} (cooked : isRaw = false)
      (after : Body quote count isBytes isRaw 0 rest items) :
      Body quote count isBytes isRaw closing (backslash :: lineFeed :: rest) (.removed :: items)
  | letter {closing e n rest items} (cooked : isRaw = false)
      (stands : plainEscapes.lookup e = some n)
      (after : Body quote count isBytes isRaw 0 rest items) :
      Body quote count isBytes isRaw closing (backslash :: e :: rest) (.code n :: items)
  | octal {closing first digits rest items} (cooked : isRaw = false) (isDigit : isOdigit first = true)
      (areDigits : ∀ d ∈ digits, isOdigit d = true)
      (all : digits.length = 2 ∨ digits.length < 2 ∧ Ends isOdigit rest)
      (after : Body quote count isBytes isRaw 0 rest items) :
      Body quote count isBytes isRaw closing (backslash :: first :: (digits ++ rest))
        (.code (octalNumber (first :: digits)) :: items)
  | hex {closing e digits rest items} (cooked : isRaw = false) (isLetter : IsHexLetter isBytes e)
      (areDigits : ∀ d ∈ digits, isXdigit d = true) (all : digits.length = hexDigits e)
      (after : Body quote count isBytes isRaw 0 rest items) :
      Body quote count isBytes isRaw closing (backslash :: e :: (digits ++ rest))
        (.code (hexNumber digits) :: items)
  | malformed {closing e digits rest items} (cooked : isRaw = false)
      (isLetter : IsHexLetter isBytes e) (areDigits : ∀ d ∈ digits, isXdigit d = true)
      (few : digits.length < hexDigits e) (ends : Ends isXdigit rest)
      (after : Body quote count isBytes isRaw 0 rest items) :
      Body quote count isBytes isRaw closing (backslash :: e :: (digits ++ rest))
        (.malformed :: items)
  | named {closing rest items} (cooked : isRaw = false) (isString : isBytes = false)
      (after : Body quote count isBytes isRaw 0 rest items) :
      Body quote count isBytes isRaw closing (backslash :: 'N'.toNat :: rest) (.named :: items)
  | other {closing d rest items} (cooked : isRaw = false) (notLine : d ≠ lineFeed)
      (notLetter : plainEscapes.lookup d = none) (notHex : ¬IsHexLetter isBytes d)
      (notOctal : isOdigit d = false) (notNamed : d = 'N'.toNat → isBytes = true)
      (after : Body quote count isBytes isRaw 0 rest items) :
      Body quote count isBytes isRaw closing (backslash :: d :: rest) (.other d :: items)

namespace StringItem

variable (isBytes : Bool)

/-- The code of an escape stands for nothing: there is no such character, or no such byte. -/
def outOfRange (n : Nat) : Prop := if isBytes then 255 < n else 0x10FFFF < n

instance (n : Nat) : Decidable (outOfRange isBytes n) := by
  unfold outOfRange
  infer_instance

/-- The item makes the literal invalid. -/
def Bad : StringItem → Prop
  | .code n => outOfRange isBytes n
  | .malformed => True
  | _ => False

instance (item : StringItem) : Decidable (item.Bad isBytes) := by
  cases item <;> unfold Bad <;> infer_instance

/-- A character or a byte. -/
def encoded (n : Nat) : List Nat := if isBytes then [n] else charBytes n

/-- The bytes that an item stands for. -/
def value : StringItem → List Nat
  | .plain c => [c]
  | .pair d | .other d => [backslash, d]
  | .code n => encoded isBytes n
  | .removed | .malformed | .named => []

end StringItem

/-- The kind of a token. -/
def literalKind (isBytes : Bool) : TokenKind := if isBytes then .bytes else .string

/-! ## What the lexer makes of an item -/

namespace StringItem

variable (isBytes : Bool)

/-- The name of a character raises, and so does its letter after a backslash in bytes. -/
def Raises : StringItem → Prop
  | .other d => isBytes = true ∧ d = 'N'.toNat
  | .named => True
  | _ => False

/-- The largest number is taken for the end of the file. -/
def endOfFile : Nat := 0xFFFFFFFF

def Rejected : StringItem → Prop
  | .code n => n ≠ endOfFile ∧ outOfRange isBytes n
  | .malformed => True
  | _ => False

/-- The bytes that the lexer adds. -/
def added : StringItem → List Nat
  | .plain c => [c]
  | .pair d | .other d => backslash :: encoded isBytes d
  | .code n => if n = endOfFile then [] else encoded isBytes n
  | .removed | .malformed | .named => []

/-- The lexer goes on after the item. -/
def Accepted (item : StringItem) : Prop := ¬item.Raises isBytes ∧ ¬item.Rejected isBytes

/-- The item is read for what it is. -/
def Kept : StringItem → Prop
  | .pair d => isBytes = true ∨ d < 0x80
  | .other d => if isBytes then d ≠ 'N'.toNat else d < 0x80
  | .code n => n ≠ endOfFile
  | _ => True

end StringItem

section Items

variable {isBytes isRaw : Bool} {quote count closing c d n : Nat} {vstr text : List Nat}
  {lit : Literal}

/-- A literal that has these contents so far, in front of this text. -/
structure InBody (isBytes : Bool) (vstr text : List Nat) (closing : Nat) (lit : Literal) : Prop where
  holds : Holds text lit.lex
  kind : lit.kind = literalKind isBytes
  vstr : lit.vstr = vstr
  closing : lit.nClosing = closing

theorem encoded_lt : n < 0x80 → StringItem.encoded isBytes n = [n] := by
  intro ascii
  cases isBytes with
  | false => exact if_pos ascii
  | true => rfl

theorem addEscaped_kept (isKind : lit.kind = literalKind isBytes)
    (inRange : ¬StringItem.outOfRange isBytes n) :
    addEscaped lit (some n) = { lit with vstr := lit.vstr ++ StringItem.encoded isBytes n } := by
  cases isBytes with
  | false =>
    have small : n < 0x110000 := by
      rw [StringItem.outOfRange, if_neg Bool.false_ne_true] at inRange
      omega
    exact if_pos ⟨small, isKind⟩
  | true =>
    have small : n < 0x100 := by
      rw [StringItem.outOfRange, if_pos rfl] at inRange
      omega
    have isKind : lit.kind = .bytes := isKind
    have notString : ¬(n < 0x110000 ∧ lit.kind = .string) := by
      rw [isKind]
      rintro ⟨-, isString⟩
      cases isString
    rw [addEscaped, if_neg notString, if_pos ⟨small, isKind⟩]
    rfl

theorem addEscaped_rejected (isKind : lit.kind = literalKind isBytes)
    (outside : StringItem.outOfRange isBytes n) :
    addEscaped lit (some n) = { lit with kind := .invalid } := by
  cases isBytes with
  | false =>
    have large : 0x10FFFF < n := by
      rwa [StringItem.outOfRange, if_neg Bool.false_ne_true] at outside
    rw [addEscaped, if_neg (by omega), if_neg (by omega)]
  | true =>
    have large : 255 < n := by
      rwa [StringItem.outOfRange, if_pos rfl] at outside
    have isKind : lit.kind = .bytes := isKind
    have notString : ¬(n < 0x110000 ∧ lit.kind = .string) := by
      rw [isKind]
      rintro ⟨-, isString⟩
      cases isString
    rw [addEscaped, if_neg notString, if_neg (by omega)]

theorem addEscaped_invalid (isInvalid : lit.kind = .invalid) (added : Unichar) :
    (addEscaped lit added).kind = .invalid := by
  cases added with
  | none => exact isInvalid
  | some c =>
    have noString : ¬(c < 0x110000 ∧ lit.kind = .string) := by simp [isInvalid]
    have noBytes : ¬(c < 0x100 ∧ lit.kind = .bytes) := by simp [isInvalid]
    rw [addEscaped, if_neg noString, if_neg noBytes]

/-- What `parse_string_literal` does after a backslash. -/
def escaped (isRaw : Bool) (lit : Literal) : Option Literal :=
  (parseEscape isRaw lit).map fun (lit, c) =>
    let lit := addEscaped lit c
    { lit with lex := nextChar lit.lex }

/-- What becomes of a literal with these contents by an item. -/
structure ReadsItem (isBytes : Bool) (vstr text : List Nat) (closing : Nat) (item : StringItem)
    (result : Option Literal) : Prop where
  accepted : ¬item.Raises isBytes → ¬item.Rejected isBytes →
    ∃ after, result = some after ∧ InBody isBytes (vstr ++ item.added isBytes) text closing after
  rejected : item.Rejected isBytes → ∃ after, result = some after ∧ after.kind = .invalid
  raises : item.Raises isBytes → result = none

variable {lex : Cursor} {rest : List Nat}

theorem InBody.escaped_char (front : List Nat) {item : StringItem}
    (inBody : InBody isBytes vstr (d :: text) closing lit) (parsed : parseEscape isRaw lit =
      some ({ lit with lex := lex, vstr := lit.vstr ++ front }, some n))
    (after : Holds rest (nextChar lex)) (silent : ¬item.Raises isBytes)
    (adds : ¬StringItem.outOfRange isBytes n →
      ¬item.Rejected isBytes ∧ item.added isBytes = front ++ StringItem.encoded isBytes n)
    (rejects : StringItem.outOfRange isBytes n → item.Rejected isBytes) :
    ReadsItem isBytes vstr rest closing item (escaped isRaw lit) := by
  obtain ⟨-, isKind, isVstr, isClosing⟩ := inBody
  rw [escaped, parsed]
  by_cases inRange : StringItem.outOfRange isBytes n
  · have rejected := rejects inRange
    refine ⟨fun _ notRejected => absurd rejected notRejected, fun _ => ?_,
      fun raises => absurd raises silent⟩
    have isInvalid := @addEscaped_rejected isBytes n
      { lit with lex := lex, vstr := lit.vstr ++ front } isKind inRange
    simp only [Option.map_some, isInvalid]
    exact ⟨_, rfl, rfl⟩
  · obtain ⟨notRejected, isAdded⟩ := adds inRange
    refine ⟨fun _ _ => ?_, fun rejected => absurd rejected notRejected,
      fun raises => absurd raises silent⟩
    have isKept := @addEscaped_kept isBytes n
      { lit with lex := lex, vstr := lit.vstr ++ front } isKind inRange
    simp only [Option.map_some, isKept]
    exact ⟨_, rfl, after, isKind, by rw [isAdded, isVstr, append_assoc], isClosing⟩

theorem inRange_byte (byte : d < 256) : ¬StringItem.outOfRange isBytes d := by
  rw [StringItem.outOfRange]
  split_ifs <;> omega

theorem InBody.escaped_verbatim {item : StringItem}
    (inBody : InBody isBytes vstr (d :: text) closing lit)
    (parsed : parseEscape isRaw lit =
      some ({ lit with vstr := lit.vstr ++ [backslash] }, some d))
    (silent : ¬item.Raises isBytes) (notRejected : ¬item.Rejected isBytes)
    (isAdded : item.added isBytes = backslash :: StringItem.encoded isBytes d) :
    ReadsItem isBytes vstr text closing item (escaped isRaw lit) :=
  inBody.escaped_char [backslash] parsed inBody.holds.tail silent
    (fun _ => ⟨notRejected, isAdded⟩)
    fun outside => absurd outside (inRange_byte inBody.holds.byte)

theorem escaped_pair (inBody : InBody isBytes vstr (d :: text) closing lit) :
    ReadsItem isBytes vstr text closing (.pair d) (escaped true lit) := by
  refine inBody.escaped_verbatim ?_ id id rfl
  simp only [parseEscape, inBody.holds.here, if_true]

theorem escaped_newline (inBody : InBody isBytes vstr (lineFeed :: text) closing lit) :
    ReadsItem isBytes vstr text closing .removed (escaped false lit) := by
  have parsed : parseEscape false lit = some (lit, none) := by
    simp only [parseEscape, inBody.holds.here, Bool.false_eq_true, if_false, if_true]
  obtain ⟨holds, isKind, isVstr, isClosing⟩ := inBody
  rw [escaped, parsed]
  refine ⟨fun _ _ => ⟨_, rfl, holds.tail, isKind, ?_, isClosing⟩, False.elim, False.elim⟩
  simp only [addEscaped, StringItem.added, append_nil, isVstr]

theorem plainEscapes_ascii (stands : plainEscapes.lookup d = some n) : d ≠ lineFeed ∧ n < 0x80 := by
  have ascii : ∀ pair ∈ plainEscapes, pair.1 ≠ lineFeed ∧ pair.2 < 0x80 := by decide
  obtain ⟨before, after, isSplit, -⟩ := lookup_eq_some_iff.mp stands
  exact ascii (d, n) (by rw [isSplit]; simp)

theorem escaped_letter (inBody : InBody isBytes vstr (d :: text) closing lit)
    (stands : plainEscapes.lookup d = some n) :
    ReadsItem isBytes vstr text closing (.code n) (escaped false lit) := by
  obtain ⟨notLine, ascii⟩ := plainEscapes_ascii stands
  have small : n ≠ StringItem.endOfFile := by
    rw [StringItem.endOfFile]
    omega
  have parsed : parseEscape false lit =
      some ({ lit with lex := lit.lex, vstr := lit.vstr ++ [] }, some n) := by
    simp only [parseEscape, inBody.holds.here, Bool.false_eq_true, if_false, notLine, stands,
      append_nil]
  refine inBody.escaped_char [] parsed inBody.holds.tail id ?_ fun outside => ⟨small, outside⟩
  intro inRange
  exact ⟨fun rejected => inRange rejected.2, if_neg small⟩

/-! ### Digits -/

theorem xdigitValue_hex (digit : isXdigit d = true) : xdigitValue d = hexValue d := by
  have cases : (48 ≤ d ∧ d ≤ 57 ∨ 65 ≤ d ∧ d ≤ 70) ∨ 97 ≤ d ∧ d ≤ 102 := by
    simpa [isXdigit, isDigit] using digit
  rcases cases with (⟨low, high⟩ | ⟨low, high⟩) | ⟨low, high⟩
  · rw [hexValue, if_pos high, xdigitValue]
    exact if_neg (by omega)
  · interval_cases d <;> rfl
  · interval_cases d <;> rfl

variable {digits : List Nat}

theorem getHex_holds (areDigits : ∀ d ∈ digits, isXdigit d = true)
    (holds : Holds (c :: (digits ++ text)) lex) (num : Nat) :
    (getHex digits.length lex num).2 =
        some (digits.foldl (fun num d => num * 16 + hexValue d) num) ∧
      Holds text (nextChar (getHex digits.length lex num).1) := by
  induction digits generalizing lex c num with
  | nil => exact ⟨rfl, holds.tail⟩
  | cons digit digits ih =>
    obtain ⟨isDigit, areDigits⟩ := forall_mem_cons.mp areDigits
    have next : Holds (digit :: (digits ++ text)) (nextChar lex) := holds.tail
    simp only [length_cons, getHex, next.here, isDigit, if_true, xdigitValue_hex isDigit]
    exact ih areDigits next _

theorem getHex_few {count : Nat} (areDigits : ∀ d ∈ digits, isXdigit d = true)
    (few : digits.length < count) (ends : Ends isXdigit text)
    (holds : Holds (c :: (digits ++ text)) lex) (num : Nat) : (getHex count lex num).2 = none := by
  induction digits generalizing lex c num count with
  | nil =>
    obtain ⟨count, rfl⟩ : ∃ fewer, count = fewer + 1 := ⟨count - 1, by simp at few; omega⟩
    have next : Holds text (nextChar lex) := holds.tail
    rw [getHex]
    cases text with
    | nil => simp only [next.chr0, List.getElem?_nil]
    | cons d text =>
      have other : isXdigit d = false := ends d rfl
      simp only [next.here, other, Bool.false_eq_true, if_false]
  | cons digit digits ih =>
    obtain ⟨count, rfl⟩ : ∃ fewer, count = fewer + 1 := ⟨count - 1, by simp at few; omega⟩
    obtain ⟨isDigit, areDigits⟩ := forall_mem_cons.mp areDigits
    have next : Holds (digit :: (digits ++ text)) (nextChar lex) := holds.tail
    simp only [getHex, next.here, isDigit, if_true]
    exact ih areDigits (Nat.lt_of_succ_lt_succ few) next _

/-- As many octal digits are read as there are. -/
theorem getOctal_holds {count : Nat} (areDigits : ∀ d ∈ digits, isOdigit d = true)
    (all : digits.length = count ∨ digits.length < count ∧ Ends isOdigit text)
    (holds : Holds (c :: (digits ++ text)) lex) (num : Nat) :
    (getOctal count lex num).2 = digits.foldl (fun num d => num * 8 + (d - 48)) num ∧
      Holds text (nextChar (getOctal count lex num).1) := by
  induction digits generalizing lex c num count with
  | nil =>
    rcases all with rfl | ⟨few, ends⟩
    · exact ⟨rfl, holds.tail⟩
    · obtain ⟨count, rfl⟩ : ∃ fewer, count = fewer + 1 := ⟨count - 1, by simp at few; omega⟩
      have next : lex.chr1 = text.head? := by
        rw [holds.chr1]
        cases text <;> rfl
      rw [getOctal, next]
      cases text with
      | nil => exact ⟨rfl, holds.tail⟩
      | cons d text =>
        have other : isOdigit d = false := ends d rfl
        simp only [List.head?_cons, other, Bool.false_eq_true, if_false]
        exact ⟨rfl, holds.tail⟩
  | cons digit digits ih =>
    obtain ⟨count, rfl⟩ : ∃ fewer, count = fewer + 1 := by
      refine ⟨count - 1, ?_⟩
      rw [length_cons] at all
      omega
    obtain ⟨isDigit, areDigits⟩ := forall_mem_cons.mp areDigits
    have next : Holds (digit :: (digits ++ text)) (nextChar lex) := holds.tail
    have here : lex.chr1 = some digit := holds.chr1
    simp only [getOctal, here, isDigit, if_true, foldl_cons]
    refine ih areDigits ?_ next _
    simpa using all

theorem octal_bounds (digit : isOdigit d = true) : 48 ≤ d ∧ d ≤ 55 := by
  simpa [isOdigit] using digit

theorem octalNumber_lt {first : Nat} (isDigit : isOdigit first = true)
    (areDigits : ∀ d ∈ digits, isOdigit d = true) (most : digits.length ≤ 2) :
    octalNumber (first :: digits) < 512 := by
  have := octal_bounds isDigit
  rcases digits with _ | ⟨second, _ | ⟨third, digits⟩⟩
  · simp only [octalNumber, foldl_cons, foldl_nil]
    omega
  · have := octal_bounds (areDigits second (by simp))
    simp only [octalNumber, foldl_cons, foldl_nil]
    omega
  · have := octal_bounds (areDigits second (by simp))
    have := octal_bounds (areDigits third (by simp))
    obtain rfl : digits = [] := by
      rw [length_cons, length_cons] at most
      exact eq_nil_of_length_eq_zero (by omega)
    simp only [octalNumber, foldl_cons, foldl_nil]
    omega

theorem escaped_octal {first : Nat} (isDigit : isOdigit first = true)
    (areDigits : ∀ d ∈ digits, isOdigit d = true)
    (all : digits.length = 2 ∨ digits.length < 2 ∧ Ends isOdigit text)
    (inBody : InBody isBytes vstr (first :: (digits ++ text)) closing lit) :
    ReadsItem isBytes vstr text closing (.code (octalNumber (first :: digits))) (escaped false lit) := by
  have bounds := octal_bounds isDigit
  have notEscape : first ≠ lineFeed ∧ plainEscapes.lookup first = none ∧
      isOneOf ['u', 'U'] first = false ∧ isOneOf ['x', 'u', 'U'] first = false ∧
      isOneOf ['N'] first = false := by
    obtain ⟨low, high⟩ := bounds
    interval_cases first <;> decide
  obtain ⟨notLine, notLetter, notUnicode, notHex, notNamed⟩ := notEscape
  obtain ⟨value, after⟩ := getOctal_holds areDigits all inBody.holds (first - 48)
  have number : octalNumber (first :: digits) =
      digits.foldl (fun num d => num * 8 + (d - 48)) (first - 48) := by
    rw [octalNumber, foldl_cons, Nat.zero_mul, Nat.zero_add]
  have parsed : parseEscape false lit = some ({ lit with
      lex := (getOctal 2 lit.lex (first - 48)).1
      vstr := lit.vstr ++ [] }, some (octalNumber (first :: digits))) := by
    simp only [parseEscape, inBody.holds.here, Bool.false_eq_true, if_false, notLine, notLetter,
      notUnicode, notHex, notNamed, isDigit, if_true, false_and, append_nil, value, number]
  have small : octalNumber (first :: digits) ≠ StringItem.endOfFile := by
    have bound := octalNumber_lt isDigit areDigits (by omega)
    rw [StringItem.endOfFile]
    omega
  refine inBody.escaped_char [] parsed after id ?_ fun outside => ⟨small, outside⟩
  intro inRange
  exact ⟨fun rejected => inRange rejected.2, if_neg small⟩

theorem parseEscape_isHexLetter (isKind : lit.kind = literalKind isBytes)
    (here : lit.lex.chr0 = some d) (isLetter : IsHexLetter isBytes d) :
    parseEscape false lit = some (hexEscape lit d) := by
  have letters : d = 'x'.toNat ∨ d = 'u'.toNat ∨ d = 'U'.toNat := by
    rcases isLetter with isX | ⟨-, isU⟩
    · exact Or.inl isX
    · exact Or.inr isU
  have notEscape : d ≠ lineFeed ∧ plainEscapes.lookup d = none ∧
      isOneOf ['x', 'u', 'U'] d = true := by
    rcases letters with rfl | rfl | rfl <;> decide
  obtain ⟨notLine, notLetter, isHex⟩ := notEscape
  have notVerbatim : ¬(isOneOf ['u', 'U'] d = true ∧ lit.kind = .bytes) := by
    rintro ⟨unicode, bytes⟩
    rcases isLetter with rfl | ⟨isString, -⟩
    · exact absurd unicode (by decide)
    · rw [isKind, isString] at bytes
      cases bytes
  simp only [parseEscape, here, Bool.false_eq_true, if_false, notLine, notLetter, notVerbatim, isHex,
    if_true]

theorem escaped_hex (isLetter : IsHexLetter isBytes d) (areDigits : ∀ d ∈ digits, isXdigit d = true)
    (all : digits.length = hexDigits d)
    (inBody : InBody isBytes vstr (d :: (digits ++ text)) closing lit) :
    ReadsItem isBytes vstr text closing (.code (hexNumber digits)) (escaped false lit) := by
  obtain ⟨value, after⟩ := getHex_holds areDigits inBody.holds 0
  have parsed := parseEscape_isHexLetter inBody.kind inBody.holds.here isLetter
  rw [all] at value after
  have isNumber : hexEscape lit d = ({ lit with lex := (getHex (hexDigits d) lit.lex 0).1 },
      if hexNumber digits = StringItem.endOfFile then none else some (hexNumber digits)) := by
    rw [hexEscape]
    generalize getHex (hexDigits d) lit.lex 0 = result at value
    obtain ⟨lex, num⟩ := result
    obtain rfl : num = some (hexNumber digits) := value
    rfl
  rw [isNumber] at parsed
  by_cases isEnd : hexNumber digits = StringItem.endOfFile
  · rw [if_pos isEnd] at parsed
    obtain ⟨-, isKind, isVstr, isClosing⟩ := inBody
    rw [escaped, parsed]
    refine ⟨fun _ _ => ⟨_, rfl, after, isKind, ?_, isClosing⟩, fun rejected => absurd isEnd rejected.1,
      False.elim⟩
    simp only [addEscaped, StringItem.added, if_pos isEnd, append_nil, isVstr]
  · rw [if_neg isEnd, ← append_nil lit.vstr] at parsed
    refine inBody.escaped_char [] parsed after id ?_ fun outside => ⟨isEnd, outside⟩
    intro inRange
    exact ⟨fun rejected => inRange rejected.2, if_neg isEnd⟩

theorem escaped_malformed (isLetter : IsHexLetter isBytes d)
    (areDigits : ∀ d ∈ digits, isXdigit d = true) (few : digits.length < hexDigits d)
    (ends : Ends isXdigit text) (inBody : InBody isBytes vstr (d :: (digits ++ text)) closing lit) :
    ReadsItem isBytes vstr rest closing .malformed (escaped false lit) := by
  have none_ := getHex_few areDigits few ends inBody.holds 0
  have parsed := parseEscape_isHexLetter inBody.kind inBody.holds.here isLetter
  have isInvalid : (hexEscape lit d).1.kind = .invalid := by
    rw [hexEscape]
    generalize getHex (hexDigits d) lit.lex 0 = result at none_
    obtain ⟨lex, num⟩ := result
    obtain rfl : num = none := none_
    rfl
  refine ⟨fun _ accepted => absurd trivial accepted, fun _ => ?_, False.elim⟩
  rw [escaped, parsed]
  refine ⟨_, rfl, ?_⟩
  exact addEscaped_invalid isInvalid (hexEscape lit d).2

theorem escaped_named (inBody : InBody false vstr ('N'.toNat :: text) closing lit) :
    ReadsItem false vstr rest closing .named (escaped false lit) := by
  have parsed : parseEscape false lit = none := by
    have notEscape : 'N'.toNat ≠ lineFeed ∧ plainEscapes.lookup 'N'.toNat = none ∧
        isOneOf ['u', 'U'] 'N'.toNat = false ∧ isOneOf ['x', 'u', 'U'] 'N'.toNat = false ∧
        isOneOf ['N'] 'N'.toNat = true := by decide
    obtain ⟨notLine, notLetter, notUnicode, notHex, isNamed⟩ := notEscape
    simp only [parseEscape, inBody.holds.here, Bool.false_eq_true, if_false, notLine, notLetter,
      notUnicode, notHex, isNamed, if_true, false_and]
  refine ⟨fun silent => absurd trivial silent, False.elim, fun _ => ?_⟩
  rw [escaped, parsed]
  rfl

theorem escaped_other (notLine : d ≠ lineFeed) (notLetter : plainEscapes.lookup d = none)
    (notHex : ¬IsHexLetter isBytes d) (notOctal : isOdigit d = false)
    (notNamed : d = 'N'.toNat → isBytes = true)
    (inBody : InBody isBytes vstr (d :: text) closing lit) :
    ReadsItem isBytes vstr text closing (.other d) (escaped false lit) := by
  by_cases unicode : isOneOf ['u', 'U'] d = true
  · -- The letters of characters are no escapes in bytes.
    have isOne : 'u'.toNat = d ∨ 'U'.toNat = d := by simpa [isOneOf] using unicode
    have letters : d = 'u'.toNat ∨ d = 'U'.toNat := isOne.imp Eq.symm Eq.symm
    have inBytes : isBytes = true := by
      by_contra isString
      exact notHex (Or.inr ⟨by simpa using isString, letters⟩)
    have isKind : lit.kind = .bytes := by rw [inBody.kind, inBytes]; rfl
    have other : d ≠ 'N'.toNat := by rcases letters with rfl | rfl <;> decide
    refine inBody.escaped_verbatim ?_ (fun raises => other raises.2) id rfl
    simp only [parseEscape, inBody.holds.here, Bool.false_eq_true, if_false, notLine, notLetter, unicode,
      isKind, and_self, if_true]
  · have notUnicode : isOneOf ['u', 'U'] d = false := by simpa using unicode
    have noLetter : isOneOf ['x', 'u', 'U'] d = false := by
      have notX : 'x'.toNat ≠ d := fun isX => notHex (Or.inl isX.symm)
      have apart : isOneOf ['x', 'u', 'U'] d = ('x'.toNat == d || isOneOf ['u', 'U'] d) := rfl
      rw [apart, notUnicode, beq_eq_false_iff_ne.mpr notX]
      rfl
    by_cases isNamed : d = 'N'.toNat
    · have raises : StringItem.Raises isBytes (.other d) := ⟨notNamed isNamed, isNamed⟩
      have named : isOneOf ['N'] d = true := by rw [isNamed]; decide
      refine ⟨fun silent => absurd raises silent, False.elim, fun _ => ?_⟩
      have parsed : parseEscape false lit = none := by
        simp only [parseEscape, inBody.holds.here, Bool.false_eq_true, if_false, notLine, notLetter,
          notUnicode, noLetter, named, false_and, if_true]
      rw [escaped, parsed]
      rfl
    · have noName : isOneOf ['N'] d = false := by
        have apart : isOneOf ['N'] d = ('N'.toNat == d || false) := rfl
        rw [apart, beq_eq_false_iff_ne.mpr (Ne.symm isNamed)]
        rfl
      refine inBody.escaped_verbatim ?_ (fun raises => isNamed raises.2) id rfl
      simp only [parseEscape, inBody.holds.here, Bool.false_eq_true, if_false, notLine, notLetter,
        notUnicode, noLetter, noName, notOctal, false_and]

end Items

end MultiPython.Parse
