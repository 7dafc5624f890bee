import MultiPython.Parse.Escapes

/-!
# Literals of strings and bytes

The loop of `parse_string_literal` reads a literal item by item, and `mp_lexer_to_next` reads
adjacent literals of one kind as one token. What the token is, is measured against what the
items stand for.
-/

namespace MultiPython.Parse

open Logic Str List Option

/-- What becomes of something that is read by items, one after the other. -/
structure Scans {α : Type*} (isBytes : Bool) (items : List StringItem) (good bad : α → Prop)
    (result : Option α) : Prop where
  accepted : (∀ item ∈ items, item.Accepted isBytes) → ∃ after, result = some after ∧ good after
  refused : (∃ item ∈ items, ¬item.Accepted isBytes) → ∀ after, result = some after → bad after
  raises : (∃ item ∈ items, item.Raises isBytes) → (∀ item ∈ items, ¬item.Rejected isBytes) →
    result = none

section Scans

variable {α β : Type*} {isBytes : Bool} {items later : List StringItem} {good bad : α → Prop}
  {good' bad' : β → Prop} {result : Option α}

theorem Scans.bind (scans : Scans isBytes items good bad result) {f : α → Option β}
    (goesOn : ∀ after, good after → Scans isBytes later good' bad' (f after))
    (fails : ∀ after, bad after → ∀ last, f after = some last → bad' last) :
    Scans isBytes (items ++ later) good' bad' (result.bind f) := by
  constructor
  · intro accepted
    obtain ⟨first, second⟩ := forall_mem_append.mp accepted
    obtain ⟨after, rfl, isGood⟩ := scans.accepted first
    exact (goesOn after isGood).accepted second
  · rintro ⟨item, member, isRefused⟩ last isLast
    obtain ⟨after, rfl, isLast⟩ := bind_eq_some_iff.mp isLast
    by_cases accepted : ∀ item ∈ items, item.Accepted isBytes
    · obtain ⟨same, isSame, isGood⟩ := scans.accepted accepted
      obtain rfl := some.inj isSame
      have inLater : item ∈ later :=
        (mem_append.mp member).resolve_left fun first => isRefused (accepted item first)
      exact (goesOn after isGood).refused ⟨item, inLater, isRefused⟩ last isLast
    · have isBad := scans.refused (by simpa using accepted) after rfl
      exact fails after isBad last isLast
  · rintro ⟨item, member, isRaised⟩ noneRejected
    obtain ⟨first, second⟩ := forall_mem_append.mp noneRejected
    by_cases inFirst : ∃ item ∈ items, item.Raises isBytes
    · rw [scans.raises inFirst first, bind_none]
    · have silent : ∀ item ∈ items, ¬item.Raises isBytes := by simpa using inFirst
      obtain ⟨after, rfl, isGood⟩ := scans.accepted fun item there => ⟨silent item there, first item there⟩
      have inLater : item ∈ later :=
        (mem_append.mp member).resolve_left fun there => silent item there isRaised
      exact (goesOn after isGood).raises ⟨item, inLater, isRaised⟩ second

theorem Scans.map (scans : Scans isBytes items good bad result) {f : α → β}
    (isGood : ∀ after, good after → good' (f after)) (isBad : ∀ after, bad after → bad' (f after)) :
    Scans isBytes items good' bad' (result.map f) := by
  constructor
  · intro accepted
    obtain ⟨after, rfl, goodOne⟩ := scans.accepted accepted
    exact ⟨f after, rfl, isGood after goodOne⟩
  · intro isRefused last isLast
    obtain ⟨after, rfl, rfl⟩ := map_eq_some_iff.mp isLast
    exact isBad after (scans.refused isRefused after rfl)
  · intro isRaised noneRejected
    rw [scans.raises isRaised noneRejected, map_none]

theorem scans_nil {after : α} (isGood : good after) : Scans isBytes [] good bad (some after) := by
  constructor
  · exact fun _ => ⟨after, rfl, isGood⟩
  · rintro ⟨item, member, -⟩
    cases member
  · rintro ⟨item, member, -⟩
    cases member

end Scans

variable {test : Nat → Bool}

section Items

variable {isBytes isRaw : Bool} {quote count closing c : Nat} {vstr text bytes rest : List Nat}
  {items : List StringItem} {lit : Literal}

/-! ## What the lexer makes of a literal -/

theorem isQuote_cases (isQuoted : isQuote quote = true) :
    quote = singleQuote ∨ quote = doubleQuote := by
  simpa [isQuote] using isQuoted

theorem literalBody_escape (isQuoted : isQuote quote = true) (isOpen : closing < count)
    (inBody : InBody isBytes vstr (backslash :: text) closing lit) :
    literalBody quote count isRaw (some lit) =
      some (escaped isRaw { lit with lex := nextChar lit.lex, nClosing := 0 }) := by
  have notQuote : backslash ≠ quote := by
    rintro rfl
    cases isQuoted
  have goesOn : ¬((count = 1 ∧ backslash = lineFeed) ∨ count ≤ lit.nClosing) := by
    rw [inBody.closing]
    rintro (⟨-, line⟩ | closed)
    · cases line
    · omega
  simp only [literalBody, inBody.holds.here, if_neg goesOn, if_neg notQuote, if_true]
  rfl

theorem InBody.next (inBody : InBody isBytes vstr (c :: text) closing lit) :
    InBody isBytes vstr text 0 { lit with lex := nextChar lit.lex, nClosing := 0 } :=
  ⟨inBody.holds.tail, inBody.kind, inBody.vstr, rfl⟩

theorem literalBody_plain (notQuote : c ≠ quote) (notEscape : c ≠ backslash)
    (sameLine : count = 1 → c ≠ lineFeed) (isOpen : closing < count)
    (inBody : InBody isBytes vstr (c :: text) closing lit) :
    ∃ after, literalBody quote count isRaw (some lit) = some (some after) ∧
      InBody isBytes (vstr ++ [c]) text 0 after := by
  have goesOn : ¬((count = 1 ∧ c = lineFeed) ∨ count ≤ lit.nClosing) := by
    rw [inBody.closing]
    rintro (⟨single, line⟩ | closed)
    · exact sameLine single line
    · omega
  simp only [literalBody, inBody.holds.here, if_neg goesOn, if_neg notQuote, if_neg notEscape]
  exact ⟨_, rfl, inBody.holds.tail, inBody.kind, by rw [inBody.vstr], rfl⟩

theorem literalBody_quote (isQuoted : isQuote quote = true) (isOpen : closing < count)
    (inBody : InBody isBytes vstr (quote :: text) closing lit) :
    ∃ after, literalBody quote count isRaw (some lit) = some (some after) ∧
      InBody isBytes (vstr ++ [quote]) text (closing + 1) after := by
  have isChar : quote ≠ lineFeed ∧ charBytes quote = [quote] := by
    rcases isQuote_cases isQuoted with rfl | rfl <;> decide
  have goesOn : ¬((count = 1 ∧ quote = lineFeed) ∨ count ≤ lit.nClosing) := by
    rw [inBody.closing]
    rintro (⟨-, line⟩ | closed)
    · exact isChar.1 line
    · omega
  simp only [literalBody, inBody.holds.here, if_neg goesOn, if_true, isChar.2]
  exact ⟨_, rfl, inBody.holds.tail, inBody.kind, by rw [inBody.vstr], by rw [inBody.closing]⟩

variable {result : Option Literal}

theorem ReadsItem.scans {item : StringItem}
    (reads : ReadsItem isBytes vstr text closing item result) :
    Scans isBytes [item] (InBody isBytes (vstr ++ item.added isBytes) text closing)
      (fun after => after.kind = .invalid) result := by
  constructor
  · intro accepted
    obtain ⟨silent, notRejected⟩ := accepted item mem_cons_self
    exact reads.accepted silent notRejected
  · rintro ⟨other, member, isRefused⟩ after isAfter
    obtain rfl := mem_singleton.mp member
    by_cases isRejected : other.Rejected isBytes
    · obtain ⟨same, isSame, isInvalid⟩ := reads.rejected isRejected
      rw [isSame] at isAfter
      cases isAfter
      exact isInvalid
    · have isRaised : other.Raises isBytes := by_contra fun silent => isRefused ⟨silent, isRejected⟩
      rw [reads.raises isRaised] at isAfter
      cases isAfter
  · rintro ⟨other, member, isRaised⟩ -
    obtain rfl := mem_singleton.mp member
    exact reads.raises isRaised

/-! ### A literal that is invalid stays so -/

theorem hexEscape_invalid (isInvalid : lit.kind = .invalid) (c : Nat) :
    (hexEscape lit c).1.kind = .invalid := by
  rw [hexEscape]
  generalize getHex (hexDigits c) lit.lex 0 = result
  obtain ⟨lex, num⟩ := result
  cases num with
  | none => rfl
  | some num => exact isInvalid

theorem parseEscape_invalid {after : Literal} {added : Unichar} (isInvalid : lit.kind = .invalid)
    (gives : parseEscape isRaw lit = some (after, added)) : after.kind = .invalid := by
  rw [parseEscape] at gives
  cases here : lit.lex.chr0 with
  | none =>
    rw [here] at gives
    cases gives
    exact isInvalid
  | some c =>
    simp only [here] at gives
    cases plain : plainEscapes.lookup c with
    | some stands =>
      simp only [plain] at gives
      split_ifs at gives
      all_goals
        cases gives
        exact isInvalid
    | none =>
      simp only [plain] at gives
      split_ifs at gives with raw line double hex name octal
      · cases gives
        exact isInvalid
      · cases gives
        exact isInvalid
      · cases gives
        exact isInvalid
      · have kept := hexEscape_invalid isInvalid c
        rw [some.inj gives] at kept
        exact kept
      · cases gives
        exact isInvalid
      · cases gives
        exact isInvalid

/-- No result, or an invalid literal. -/
def Fails (result : Option Literal) : Prop := ∀ after, result = some after → after.kind = .invalid

theorem literalBody_fails {before next : Option Literal} (fails : Fails before)
    (gives : literalBody quote count isRaw before = some next) : Fails next := by
  cases before with
  | none => cases gives
  | some lit =>
    have isInvalid := fails lit rfl
    rintro after rfl
    cases here : lit.lex.chr0 with
    | none =>
      simp only [literalBody, here] at gives
      cases gives
    | some c =>
      simp only [literalBody, here] at gives
      split_ifs at gives with ends quote escape
      · cases gives
        exact isInvalid
      · obtain ⟨⟨next, added⟩, parsed, rfl⟩ := map_eq_some_iff.mp (some.inj gives)
        exact addEscaped_invalid (parseEscape_invalid (by exact isInvalid) parsed) added
      · cases gives
        exact isInvalid

theorem literal_fails {before : Option Literal} (fails : Fails before) :
    Fails (whileSome (literalBody quote count isRaw) literalLeft before) :=
  whileSome_invariant Fails fails literalBody_fails

/-! ### The loop -/

theorem literal_closes (isQuoted : isQuote quote = true) {left : Nat} {rest : List Nat}
    (most : closing + left = count)
    (inBody : InBody isBytes vstr (List.replicate left quote ++ rest) closing lit) :
    ∃ after, whileSome (literalBody quote count isRaw) literalLeft (some lit) = some after ∧
      InBody isBytes (vstr ++ List.replicate left quote) rest count after := by
  induction left generalizing closing vstr lit with
  | zero =>
    obtain rfl : closing = count := most
    have stops : literalBody quote closing isRaw (some lit) = none := by
      rw [literalBody]
      cases lit.lex.chr0 with
      | none => rfl
      | some c => exact if_pos (.inr inBody.closing.ge)
    refine ⟨lit, whileSome_of_none stops, ?_⟩
    rw [replicate_zero, append_nil]
    exact inBody
  | succ left ih =>
    have isOpen : closing < count := by omega
    have fewer : closing + 1 + left = count := by omega
    have inBody : InBody isBytes vstr (quote :: (replicate left quote ++ rest)) closing lit :=
      inBody
    obtain ⟨next, gives, inNext⟩ := literalBody_quote isQuoted isOpen inBody
    obtain ⟨after, loop, inAfter⟩ := ih fewer inNext
    refine ⟨after, ?_, ?_⟩
    · rw [whileSome_of_some literalBody_left gives, loop]
    · rw [replicate_succ, append_cons]
      exact inAfter

theorem literal_round {before after : Option Literal}
    (gives : literalBody quote count isRaw before = some after) :
    whileSome (literalBody quote count isRaw) literalLeft before =
      after.bind fun lit => whileSome (literalBody quote count isRaw) literalLeft (some lit) := by
  rw [whileSome_of_some literalBody_left gives]
  cases after with
  | none => exact whileSome_of_none rfl
  | some after => rfl

theorem Ends.quoted {bytes : List Nat} (ends : Ends test bytes) (other : test quote = false)
    (some_ : 0 < count) (rest : List Nat) :
    Ends test (bytes ++ (List.replicate count quote ++ rest)) := by
  obtain ⟨fewer, rfl⟩ : ∃ fewer, count = fewer + 1 := ⟨count - 1, by omega⟩
  intro d first
  cases bytes with
  | nil =>
    cases first
    exact other
  | cons c bytes => exact ends d first

theorem notDigit_of_isQuote (isQuoted : isQuote quote = true) :
    isOdigit quote = false ∧ isXdigit quote = false := by
  rcases isQuote_cases isQuoted with rfl | rfl <;> decide

variable {items : List StringItem}

theorem Scans.next {item : StringItem} {rest : List Nat} {last : Nat}
    (gives : literalBody quote count isRaw (some lit) = some result)
    (scans : Scans isBytes [item] (InBody isBytes (vstr ++ item.added isBytes) text closing)
      (fun after => after.kind = .invalid) result)
    (goesOn : ∀ {vstr lit}, InBody isBytes vstr text closing lit →
      Scans isBytes items
        (InBody isBytes (vstr ++ items.flatMap (StringItem.added isBytes) ++
          List.replicate count quote) rest last)
        (fun after => after.kind = .invalid)
        (whileSome (literalBody quote count isRaw) literalLeft (some lit))) :
    Scans isBytes (item :: items)
      (InBody isBytes (vstr ++ (item :: items).flatMap (StringItem.added isBytes) ++
        List.replicate count quote) rest last)
      (fun after => after.kind = .invalid)
      (whileSome (literalBody quote count isRaw) literalLeft (some lit)) := by
  rw [literal_round gives]
  have same : vstr ++ (item :: items).flatMap (StringItem.added isBytes) =
      vstr ++ item.added isBytes ++ items.flatMap (StringItem.added isBytes) := by
    rw [flatMap_cons, append_assoc]
  rw [same]
  refine scans.bind (fun after inAfter => goesOn inAfter) ?_
  intro after isInvalid last isLast
  exact literal_fails (fun same isSame => some.inj isSame ▸ isInvalid) last isLast

/-- The loop of `parse_string_literal` on the bytes of a literal. -/
theorem literal_scans {bytes rest : List Nat} (isQuoted : isQuote quote = true)
    (body : Body quote count isBytes isRaw closing bytes items) (isOpen : closing < count)
    (inBody : InBody isBytes vstr (bytes ++ (List.replicate count quote ++ rest)) closing lit) :
    Scans isBytes items
      (InBody isBytes (vstr ++ items.flatMap (StringItem.added isBytes) ++
        List.replicate count quote) rest count)
      (fun after => after.kind = .invalid)
      (whileSome (literalBody quote count isRaw) literalLeft (some lit)) := by
  have positive : 0 < count := by omega
  induction body generalizing vstr lit with
  | done =>
    obtain ⟨after, loop, inAfter⟩ := literal_closes isQuoted (Nat.zero_add count) inBody
    rw [loop, flatMap_nil, append_nil]
    exact scans_nil inAfter
  | quote fewer after ih =>
    obtain ⟨next, gives, inNext⟩ := literalBody_quote isQuoted isOpen inBody
    refine Scans.next gives ?_ (ih fewer)
    exact ReadsItem.scans ⟨fun _ _ => ⟨next, rfl, inNext⟩, False.elim, False.elim⟩
  | plain notQuote notEscape sameLine after ih =>
    obtain ⟨next, gives, inNext⟩ := literalBody_plain notQuote notEscape sameLine isOpen inBody
    refine Scans.next gives ?_ (ih positive)
    exact ReadsItem.scans ⟨fun _ _ => ⟨next, rfl, inNext⟩, False.elim, False.elim⟩
  | pair raw after ih =>
    subst raw
    exact Scans.next (literalBody_escape isQuoted isOpen inBody) (escaped_pair inBody.next).scans
      (ih positive)
  | newline cooked after ih =>
    subst cooked
    exact Scans.next (literalBody_escape isQuoted isOpen inBody) (escaped_newline inBody.next).scans
      (ih positive)
  | letter cooked stands after ih =>
    subst cooked
    exact Scans.next (literalBody_escape isQuoted isOpen inBody)
      (escaped_letter inBody.next stands).scans (ih positive)
  | octal cooked isDigit areDigits all after ih =>
    subst cooked
    rw [cons_append, cons_append, append_assoc] at inBody
    have all := all.imp_right (And.imp_right fun ends =>
      ends.quoted (notDigit_of_isQuote isQuoted).1 positive rest)
    exact Scans.next (literalBody_escape isQuoted isOpen inBody)
      (escaped_octal isDigit areDigits all inBody.next).scans (ih positive)
  | hex cooked isLetter areDigits all after ih =>
    subst cooked
    rw [cons_append, cons_append, append_assoc] at inBody
    exact Scans.next (literalBody_escape isQuoted isOpen inBody)
      (escaped_hex isLetter areDigits all inBody.next).scans (ih positive)
  | malformed cooked isLetter areDigits few ends after ih =>
    subst cooked
    rw [cons_append, cons_append, append_assoc] at inBody
    have ends := ends.quoted (notDigit_of_isQuote isQuoted).2 positive rest
    exact Scans.next (literalBody_escape isQuoted isOpen inBody)
      (escaped_malformed isLetter areDigits few ends inBody.next).scans
      (ih positive)
  | named cooked isString after ih =>
    subst cooked isString
    exact Scans.next (literalBody_escape isQuoted isOpen inBody) (escaped_named inBody.next).scans
      (ih positive)
  | other cooked notLine notLetter notHex notOctal notNamed after ih =>
    subst cooked
    exact Scans.next (literalBody_escape isQuoted isOpen inBody)
      (escaped_other notLine notLetter notHex notOctal notNamed inBody.next).scans
      (ih positive)

/-! ### The quotes -/

theorem Body.first_ne (body : Body quote 1 isBytes isRaw 0 (c :: text) items)
    (isQuoted : isQuote quote = true) : c ≠ quote := by
  have notQuote : backslash ≠ quote := by
    rintro rfl
    cases isQuoted
  cases body with
  | quote fewer after => omega
  | plain notQuote notEscape sameLine after => exact notQuote
  | _ => exact notQuote

/-- What a literal is when it has been read. -/
structure Stood (isBytes : Bool) (vstr rest : List Nat) (lex : Cursor) (kind : TokenKind)
    (text : List Nat) : Prop where
  holds : Holds rest lex
  kind : kind = literalKind isBytes
  vstr : text = vstr

theorem parseQuoted_scans (isQuoted : isQuote quote = true)
    (body : Body quote count isBytes isRaw 0 bytes items) (positive : 0 < count)
    (inBody : InBody isBytes vstr (bytes ++ (List.replicate count quote ++ rest)) 0 lit) :
    Scans isBytes items
      (fun after => Stood isBytes (vstr ++ items.flatMap (StringItem.added isBytes)) rest after.lex
        after.kind after.vstr)
      (fun after => after.kind.isError = true) (parseQuoted quote count isRaw lit) := by
  refine (literal_scans isQuoted body positive inBody).map ?_ ?_
  · rintro after ⟨holds, isKind, isVstr, closing⟩
    refine ⟨holds, ?_, ?_⟩
    · simp only [closing, lt_irrefl, if_false, isKind]
    · simp only [isVstr, closing, length_append, length_replicate, Nat.add_sub_cancel]
      exact take_left' (by rw [length_append])
  · intro after isInvalid
    simp only
    split_ifs
    · rfl
    · rw [isInvalid]
      rfl

theorem quoteChar_here {lex : Cursor} (isQuoted : isQuote quote = true)
    (here : lex.chr0 = some quote) :
    (if lex.chr0 = some doubleQuote then doubleQuote else singleQuote) = quote := by
  rw [here]
  rcases isQuote_cases isQuoted with rfl | rfl <;> rfl

/-- The quotes of a literal: one on each side, or three. After one without anything between them no
third one follows. -/
def Quotes (quote count : Nat) (bytes rest : List Nat) : Prop :=
  count = 1 ∧ (bytes = [] → rest.head? ≠ some quote) ∨ count = 3

theorem parseStringLiteral_scans {lex : Cursor} (isQuoted : isQuote quote = true)
    (body : Body quote count isBytes isRaw 0 bytes items) (quotes : Quotes quote count bytes rest)
    (holds : Holds (List.replicate count quote ++ (bytes ++ (List.replicate count quote ++ rest))) lex)
    (vstr : List Nat) :
    Scans isBytes items
      (fun after => Stood isBytes (vstr ++ items.flatMap (StringItem.added isBytes)) rest after.lex
        after.kind after.vstr)
      (fun after => after.kind.isError = true)
      (parseStringLiteral lex (literalKind isBytes) vstr isRaw) := by
  rcases quotes with ⟨rfl, notTriple⟩ | rfl
  · have here : lex.chr0 = some quote := holds.here
    have isChar := quoteChar_here isQuoted here
    have next : Holds (bytes ++ (quote :: rest)) (nextChar lex) := holds.tail
    have single : ¬((nextChar lex).chr0 = some quote ∧ (nextChar lex).chr1 = some quote) := by
      rintro ⟨first, second⟩
      cases bytes with
      | nil =>
        rw [next.chr1] at second
        refine notTriple rfl ?_
        rw [← second]
        cases rest <;> rfl
      | cons c bytes =>
        rw [next.chr0] at first
        exact body.first_ne isQuoted (some.inj first)
    simp only [parseStringLiteral, isChar, if_neg single]
    exact parseQuoted_scans isQuoted body Nat.one_pos ⟨next, rfl, rfl, rfl⟩
  · have here : lex.chr0 = some quote := holds.here
    have isChar := quoteChar_here isQuoted here
    have next : Holds (quote :: quote :: (bytes ++ (replicate 3 quote ++ rest))) (nextChar lex) :=
      holds.tail
    have triple : (nextChar lex).chr0 = some quote ∧ (nextChar lex).chr1 = some quote :=
      ⟨next.chr0, next.chr1⟩
    simp only [parseStringLiteral, isChar, if_pos triple]
    exact parseQuoted_scans isQuoted body (by omega) ⟨next.tail.tail, rfl, rfl, rfl⟩

end Items

/-! ## Adjacent literals -/

/-- The letters before a literal. -/
def typeCodes : List (Bool × Bool × List Nat) :=
  [(false, false, []), (false, false, ['u'.toNat]), (false, true, ['r'.toNat]),
    (true, false, ['b'.toNat]), (true, true, ['b'.toNat, 'r'.toNat]),
    (true, true, ['r'.toNat, 'b'.toNat])]

/-- A literal of the kind begins here. -/
def Begins (isBytes : Bool) (text : List Nat) : Prop :=
  ∃ isRaw codes quote more, (isBytes, isRaw, codes) ∈ typeCodes ∧ isQuote quote = true ∧
    text = codes ++ quote :: more

/-- What may stand between two literals: the part that is left of a text. A newline joins them inside
of brackets. -/
inductive Gap (level : Int) (rest : List Nat) : List Nat → Prop where
  | done : Gap level rest rest
  | blank {c text} (isBlank : isSpace c = true) (inner : c ≠ lineFeed) (after : Gap level rest text) :
      Gap level rest (c :: text)
  | newline {text} (inside : level ≠ 0) (after : Gap level rest text) :
      Gap level rest (lineFeed :: text)
  | comment {text comment} (inner : ∀ c ∈ comment, c ≠ lineFeed)
      (after : Gap level rest (lineFeed :: text)) :
      Gap level rest ('#'.toNat :: (comment ++ lineFeed :: text))
  | continuation {text} (after : Gap level rest text) :
      Gap level rest (backslash :: lineFeed :: text)

/-- No gap begins here. -/
def Solid (level : Int) (rest : List Nat) : Prop :=
  ∀ c, rest.head? = some c → c = lineFeed ∧ level = 0 ∨
    c ≠ lineFeed ∧ isSpace c = false ∧ c ≠ '#'.toNat ∧ ¬(c = backslash ∧ rest[1]? = some lineFeed)

/-- A literal with these items. -/
inductive Quoted (isBytes : Bool) (rest : List Nat) : List Nat → List StringItem → Prop where
  | intro {isRaw codes quote count bytes items} (code : (isBytes, isRaw, codes) ∈ typeCodes)
      (isQuoted : isQuote quote = true) (quotes : Quotes quote count bytes rest)
      (body : Body quote count isBytes isRaw 0 bytes items) :
      Quoted isBytes rest
        (codes ++ (List.replicate count quote ++ (bytes ++ (List.replicate count quote ++ rest))))
        items

/-- The text begins with adjacent literals of the kind, which have these items; the rest follows. -/
inductive Literals (isBytes : Bool) (level : Int) (rest : List Nat) :
    List Nat → List StringItem → Prop where
  | last {text after items} (literal : Quoted isBytes after text items) (gap : Gap level rest after)
      (solid : Solid level rest) (noMore : ¬Begins isBytes rest) :
      Literals isBytes level rest text items
  | more {text after next items later} (literal : Quoted isBytes after text items)
      (gap : Gap level next after) (others : Literals isBytes level rest next later) :
      Literals isBytes level rest text (items ++ later)

section Adjacent

variable {isBytes isRaw : Bool} {quote count : Nat} {level : Int} {lex : Cursor}
  {text codes bytes rest vstr : List Nat} {items : List StringItem}

/-! ### The letters -/

theorem typeCode_of_begins {more : List Nat} (code : (isBytes, isRaw, codes) ∈ typeCodes)
    (isQuoted : isQuote quote = true) (holds : Holds (codes ++ quote :: more) lex) :
    isStringOrBytes lex = true ∧ typeCode lex = (literalKind isBytes, isRaw, codes.length) := by
  have chr0 := holds.chr0
  have chr1 := holds.chr1
  have chr2 := holds.chr2
  simp only [typeCodes, mem_cons, Prod.mk.injEq, not_mem_nil, or_false] at code
  rw [isStringOrBytes, typeCode, chr0, chr1, chr2]
  rcases code with ⟨rfl, rfl, rfl⟩ | ⟨rfl, rfl, rfl⟩ | ⟨rfl, rfl, rfl⟩ | ⟨rfl, rfl, rfl⟩ |
    ⟨rfl, rfl, rfl⟩ | ⟨rfl, rfl, rfl⟩
  all_goals
    rcases isQuote_cases isQuoted with rfl | rfl
    · exact ⟨rfl, rfl⟩
    · exact ⟨rfl, rfl⟩

theorem first_of_charIs (text : List Nat) (passes : charIs test text[0]? = true) :
    ∃ c more, text = c :: more ∧ test c = true := by
  cases text with
  | nil => cases passes
  | cons c more => exact ⟨c, more, rfl, passes⟩

theorem eq_of_isOneOf {char : Char} {c : Nat} (one : isOneOf [char] c = true) : c = char.toNat := by
  have same : char.toNat = c := by simpa [isOneOf] using one
  exact same.symm

/-- Where the lexer sees a literal, one begins. -/
theorem begins_of_isStringOrBytes (holds : Holds text lex) (isLiteral : isStringOrBytes lex = true) :
    ∃ isBytes, Begins isBytes text := by
  rw [isStringOrBytes, holds.chr0, holds.chr1, holds.chr2, Bool.or_eq_true, Bool.or_eq_true,
    Bool.and_eq_true, Bool.and_eq_true, Bool.or_eq_true, Bool.and_eq_true, Bool.and_eq_true]
    at isLiteral
  rcases isLiteral with (bare | ⟨letter, quoted⟩) | ⟨⟨isR, isB⟩ | ⟨isB, isR⟩, quoted⟩
  · obtain ⟨quote, more, rfl, isQuoted⟩ := first_of_charIs text bare
    exact ⟨false, false, [], quote, more, by decide, isQuoted, rfl⟩
  · obtain ⟨c, text, rfl, isOne⟩ := first_of_charIs text letter
    obtain ⟨quote, more, rfl, isQuoted⟩ := first_of_charIs text quoted
    have letters : 'r'.toNat = c ∨ 'u'.toNat = c ∨ 'b'.toNat = c := by simpa [isOneOf] using isOne
    rcases letters with rfl | rfl | rfl
    · exact ⟨false, true, ['r'.toNat], quote, more, by decide, isQuoted, rfl⟩
    · exact ⟨false, false, ['u'.toNat], quote, more, by decide, isQuoted, rfl⟩
    · exact ⟨true, false, ['b'.toNat], quote, more, by decide, isQuoted, rfl⟩
  · obtain ⟨c, text, rfl, isOne⟩ := first_of_charIs text isR
    obtain ⟨d, text, rfl, isNext⟩ := first_of_charIs text isB
    obtain ⟨quote, more, rfl, isQuoted⟩ := first_of_charIs text quoted
    obtain rfl := eq_of_isOneOf isOne
    obtain rfl := eq_of_isOneOf isNext
    exact ⟨true, true, ['r'.toNat, 'b'.toNat], quote, more, by decide, isQuoted, rfl⟩
  · obtain ⟨c, text, rfl, isOne⟩ := first_of_charIs text isB
    obtain ⟨d, text, rfl, isNext⟩ := first_of_charIs text isR
    obtain ⟨quote, more, rfl, isQuoted⟩ := first_of_charIs text quoted
    obtain rfl := eq_of_isOneOf isOne
    obtain rfl := eq_of_isOneOf isNext
    exact ⟨true, true, ['b'.toNat, 'r'.toNat], quote, more, by decide, isQuoted, rfl⟩

theorem Begins.typeCode (begins : Begins isBytes text) (holds : Holds text lex) :
    isStringOrBytes lex = true ∧ (typeCode lex).1 = literalKind isBytes := by
  obtain ⟨isRaw, codes, quote, more, code, isQuoted, rfl⟩ := begins
  obtain ⟨isLiteral, isCode⟩ := typeCode_of_begins code isQuoted holds
  exact ⟨isLiteral, by rw [isCode]⟩

theorem literalKind_injective {isBytes other : Bool} (same : literalKind isBytes = literalKind other) :
    isBytes = other := by
  cases isBytes <;> cases other <;> first | rfl | cases same

theorem begins_iff (holds : Holds text lex) : Begins isBytes text ↔
    isStringOrBytes lex = true ∧ literalKind isBytes = (typeCode lex).1 := by
  constructor
  · intro begins
    exact (begins.typeCode holds).imp_right Eq.symm
  · rintro ⟨isLiteral, isKind⟩
    obtain ⟨other, begins⟩ := begins_of_isStringOrBytes holds isLiteral
    obtain ⟨-, same⟩ := begins.typeCode holds
    rwa [literalKind_injective (isKind.trans same)]

/-! ### The gaps -/

theorem skipComment_line (here : lex.chr0 = some lineFeed) : skipComment lex = lex := by
  rw [skipComment, whileCursor]
  exact whileSome_of_none (if_pos (.inr here))

theorem skipComment_inner {c : Nat} (here : lex.chr0 = some c) (inner : c ≠ lineFeed) :
    skipComment lex = skipComment (nextChar lex) := by
  have goesOn : ¬(lex.isEnd ∨ lex.chr0 = some lineFeed) := by
    rw [Cursor.isEnd, here]
    simpa using inner
  rw [skipComment, whileCursor]
  refine whileSome_of_some ?_ (if_neg goesOn)
  intro lex next gives
  split_ifs at gives with stops
  cases gives
  exact nextChar_left fun ends => stops (.inl ends)

theorem skipComment_holds {comment : List Nat} (inner : ∀ c ∈ comment, c ≠ lineFeed)
    (holds : Holds (comment ++ lineFeed :: text) lex) : Holds (lineFeed :: text) (skipComment lex) := by
  induction comment generalizing lex with
  | nil =>
    rw [skipComment_line holds.here]
    exact holds
  | cons c comment ih =>
    obtain ⟨isInner, inner⟩ := forall_mem_cons.mp inner
    rw [skipComment_inner holds.here isInner]
    exact ih inner holds.tail

theorem joined_holds (holds : Holds text lex) : Holds text { lex with joined := true } :=
  ⟨holds.bytes, holds.closed, holds.chr0, holds.chr1, holds.rest⟩

/-- `skip_whitespace` passes the gap. -/
theorem Gap.skip (gap : Gap level rest text) (solid : Solid level rest) (holds : Holds text lex)
    (had : Bool) :
    Holds rest
      (whileSome (skipBody level true) (fun state => state.2.left) (had, lex)).2 := by
  have smaller : ∀ {state next : Bool × Cursor},
      skipBody level true state = some next → next.2.left < state.2.left :=
    fun gives => (skipBody_cases gives).left
  induction gap generalizing lex had with
  | done =>
    have stops : skipBody level true (had, lex) = none := by
      cases rest with
      | nil => simp [skipBody, Cursor.isEnd, holds.chr0]
      | cons c rest =>
        have here : lex.chr0 = some c := holds.here
        rcases solid c rfl with ⟨rfl, outside⟩ | ⟨inner, notBlank, notComment, notJoined⟩
        · simp [skipBody, Cursor.isEnd, here, outside]
        · have next : lex.chr1 = (c :: rest)[1]? := holds.chr1
          have noComment : isOneOf ['#'] c = false := by simpa [isOneOf] using Ne.symm notComment
          simp only [skipBody, Cursor.isEnd, here, next]
          simpa [inner, charIs, notBlank, noComment] using notJoined
    rw [whileSome_of_none stops]
    exact holds
  | blank isBlank inner after ih =>
    have here := holds.here
    have gives : skipBody level true (had, lex) = some (had, nextChar lex) := by
      simp [skipBody, Cursor.isEnd, here, inner, charIs, isBlank]
    rw [whileSome_of_some smaller gives]
    exact ih holds.tail had
  | newline inside after ih =>
    have here := holds.here
    have gives : skipBody level true (had, lex) = some (true, nextChar lex) := by
      simp [skipBody, Cursor.isEnd, here, inside]
    rw [whileSome_of_some smaller gives]
    exact ih holds.tail true
  | comment inner after ih =>
    have here := holds.here
    have gives : skipBody level true (had, lex) = some (had, skipComment (nextChar lex)) := by
      have isComment : '#'.toNat ≠ lineFeed ∧ isSpace '#'.toNat = false ∧
          isOneOf ['#'] '#'.toNat = true := by decide
      simp only [skipBody, Cursor.isEnd, here, charIs, isComment]
      simp
    rw [whileSome_of_some smaller gives]
    exact ih (skipComment_holds inner holds.tail) had
  | continuation after ih =>
    have here := holds.here
    have next : lex.chr1 = some lineFeed := holds.chr1
    have gives : skipBody level true (had, lex) =
        some (had, { nextChar (nextChar lex) with joined := true }) := by
      have isJoined : backslash ≠ lineFeed ∧ isSpace backslash = false ∧
          isOneOf ['#'] backslash = false := by decide
      simp only [skipBody, Cursor.isEnd, here, next, charIs, isJoined]
      simp
    rw [whileSome_of_some smaller gives]
    exact ih (joined_holds holds.tail.tail) had

/-! ### The loop that accumulates literals -/

/-- The tokens that the literals before have left. -/
def Reached (isBytes : Bool) (vstr rest : List Nat) (tok : Scanned) : Prop :=
  Stood isBytes vstr rest tok.lex tok.kind tok.vstr

theorem Quoted.begins (literal : Quoted isBytes rest text items) : Begins isBytes text := by
  obtain ⟨code, isQuoted, quotes, body⟩ := literal
  rcases quotes with ⟨rfl, -⟩ | rfl
  · exact ⟨_, _, _, _, code, isQuoted, rfl⟩
  · exact ⟨_, _, _, _, code, isQuoted, rfl⟩

theorem Literals.begins (literals : Literals isBytes level rest text items) : Begins isBytes text := by
  cases literals with
  | last literal gap solid noMore => exact literal.begins
  | more literal gap others => exact literal.begins

theorem Begins.solid (begins : Begins isBytes text) : Solid level text := by
  obtain ⟨isRaw, codes, quote, more, code, isQuoted, rfl⟩ := begins
  intro c first
  right
  simp only [typeCodes, mem_cons, Prod.mk.injEq, not_mem_nil, or_false] at code
  rcases code with ⟨rfl, rfl, rfl⟩ | ⟨rfl, rfl, rfl⟩ | ⟨rfl, rfl, rfl⟩ | ⟨rfl, rfl, rfl⟩ |
    ⟨rfl, rfl, rfl⟩ | ⟨rfl, rfl, rfl⟩
  · obtain rfl := some.inj first
    rcases isQuote_cases isQuoted with rfl | rfl
    · exact ⟨by decide, by decide, by decide, fun both => absurd both.1 (by decide)⟩
    · exact ⟨by decide, by decide, by decide, fun both => absurd both.1 (by decide)⟩
  all_goals
    obtain rfl := some.inj first
    exact ⟨by decide, by decide, by decide, fun both => absurd both.1 (by decide)⟩

variable {tok : Scanned}

theorem nextLiteral_scans {after next : List Nat} (literal : Quoted isBytes after text items)
    (gap : Gap level next after) (solid : Solid level next)
    (reached : Reached isBytes vstr text tok) :
    Scans isBytes items
      (Reached isBytes (vstr ++ items.flatMap (StringItem.added isBytes)) next)
      (fun tok => tok.kind.isError = true) (nextLiteral level tok) := by
  obtain ⟨holds, isKind, isVstr⟩ := reached
  cases literal with
  | @intro isRaw codes quote count bytes items code isQuoted quotes body =>
    have isCode : typeCode tok.lex = (literalKind isBytes, isRaw, codes.length) := by
      rcases quotes with ⟨rfl, -⟩ | rfl
      · exact (typeCode_of_begins code isQuoted holds).2
      · exact (typeCode_of_begins code isQuoted holds).2
    have parsed := parseStringLiteral_scans isQuoted body quotes holds.drop vstr
    simp only [nextLiteral, isCode, isKind, isVstr]
    refine parsed.map ?_ fun lit isError => isError
    rintro lit ⟨holds, isKind, isVstr⟩
    exact ⟨gap.skip solid holds false, isKind, isVstr⟩

theorem literals_end (noMore : ¬Begins isBytes rest) (reached : Reached isBytes vstr rest tok) :
    Scans isBytes [] (Reached isBytes vstr rest) (fun tok => tok.kind.isError = true)
      (whileSome (literalsBody level) scannedLeft (some tok)) := by
  have stops : literalsBody level (some tok) = none := by
    refine if_neg ?_
    rw [reached.kind]
    exact fun more => noMore ((begins_iff reached.holds).mpr more)
  rw [whileSome_of_none stops]
  exact scans_nil reached

theorem literals_scans (literals : Literals isBytes level rest text items)
    (reached : Reached isBytes vstr text tok) :
    Scans isBytes items
      (Reached isBytes (vstr ++ items.flatMap (StringItem.added isBytes)) rest)
      (fun tok => tok.kind.isError = true)
      (whileSome (literalsBody level) scannedLeft (nextLiteral level tok)) := by
  have round (read : Option Scanned) : whileSome (literalsBody level) scannedLeft read =
      read.bind fun tok => whileSome (literalsBody level) scannedLeft (some tok) := by
    cases read with
    | none => exact whileSome_of_none rfl
    | some tok => rfl
  have fails (tok : Scanned) (isError : tok.kind.isError = true) (last : Scanned)
      (isLast : whileSome (literalsBody level) scannedLeft (some tok) = some last) :
      last.kind.isError = true := by
    have stops : literalsBody level (some tok) = none := by
      refine if_neg ?_
      rintro ⟨-, isKind⟩
      have kinds := typeCode_kind tok.lex
      rw [← isKind] at kinds
      rcases mem_pair.mp kinds with string | bytes
      · rw [string] at isError
        cases isError
      · rw [bytes] at isError
        cases isError
    rw [whileSome_of_none stops] at isLast
    rwa [← some.inj isLast]
  induction literals generalizing vstr tok with
  | last literal gap solid noMore =>
    have scans := (nextLiteral_scans literal gap solid reached).bind
      (fun _ reached => literals_end noMore reached) fails
    rwa [← round, append_nil] at scans
  | more literal gap others ih =>
    rw [round]
    refine (nextLiteral_scans literal gap others.begins.solid reached).bind ?_ fails
    intro tok reached
    have another : literalsBody level (some tok) = some (nextLiteral level tok) := by
      refine if_pos ?_
      rw [reached.kind]
      exact (begins_iff reached.holds).mp others.begins
    rw [whileSome_of_some literalsBody_left another, flatMap_append, ← append_assoc]
    exact ih reached

end Adjacent

/-! ## Tokens of literals -/

/-- The token of adjacent literals with these items in front of `rest`: an error if one of them is bad,
and otherwise what they stand for. The names of characters are not supported: they raise. -/
def DecodesRight (isBytes : Bool) (items : List StringItem) (rest : List Nat)
    (result : Option Scanned) : Prop :=
  if ∃ item ∈ items, item.Bad isBytes then ∀ tok, result = some tok → tok.kind.isError = true
  else if StringItem.named ∈ items then result = none
  else ∃ lex, Holds rest lex ∧
    result = some ⟨lex, literalKind isBytes, items.flatMap (StringItem.value isBytes)⟩

section Decodes

variable {isBytes : Bool} {items : List StringItem} {rest text : List Nat} {item : StringItem}

theorem StringItem.Rejected.bad (rejected : item.Rejected isBytes) : item.Bad isBytes := by
  cases item with
  | code n => exact rejected.2
  | malformed => trivial
  | _ => exact rejected

theorem rejected_of_bad (isBad : item.Bad isBytes) (notEnd : item ≠ .code StringItem.endOfFile) :
    item.Rejected isBytes := by
  cases item with
  | code n => exact ⟨fun isEnd => notEnd (congrArg _ isEnd), isBad⟩
  | malformed => trivial
  | _ => exact isBad

theorem endOfFile_bad : StringItem.Bad isBytes (.code StringItem.endOfFile) := by
  cases isBytes <;> decide

theorem charBytes_length (n : Nat) : 0 < (charBytes n).length ∧
    ((charBytes n).length = 1 → n < 0x80) := by
  unfold charBytes
  split_ifs with ascii
  · exact ⟨Nat.one_pos, fun _ => ascii⟩
  all_goals
    constructor
    · simp
    · simp

theorem encoded_length (n : Nat) : 0 < (StringItem.encoded isBytes n).length := by
  cases isBytes with
  | false => exact (charBytes_length n).1
  | true => exact Nat.one_pos

theorem value_length_le (notBad : ¬item.Bad isBytes) :
    (item.value isBytes).length ≤ (item.added isBytes).length := by
  cases item with
  | pair d => exact Nat.succ_le_succ (encoded_length d)
  | other d => exact Nat.succ_le_succ (encoded_length d)
  | code n =>
    have small : n ≠ StringItem.endOfFile := by
      rintro rfl
      exact notBad endOfFile_bad
    rw [StringItem.added, if_neg small]
    rfl
  | _ => exact le_rfl

theorem kept_of_length (notBad : ¬item.Bad isBytes) (silent : ¬item.Raises isBytes)
    (same : (item.value isBytes).length = (item.added isBytes).length) : item.Kept isBytes := by
  cases item with
  | pair d =>
    cases isBytes with
    | true => exact .inl rfl
    | false => exact .inr ((charBytes_length d).2 (Nat.succ.inj same).symm)
  | other d =>
    cases isBytes with
    | true => exact fun isNamed => silent ⟨rfl, isNamed⟩
    | false => exact (charBytes_length d).2 (Nat.succ.inj same).symm
  | code n =>
    rintro rfl
    exact notBad endOfFile_bad
  | _ => trivial

theorem added_eq_value (kept : item.Kept isBytes) : item.added isBytes = item.value isBytes := by
  cases item with
  | pair d =>
    cases isBytes with
    | true => rfl
    | false => exact congrArg (backslash :: ·) (encoded_lt (kept.resolve_left Bool.false_ne_true))
  | other d =>
    cases isBytes with
    | true => rfl
    | false => exact congrArg (backslash :: ·) (encoded_lt kept)
  | code n => exact if_neg kept
  | _ => rfl

theorem accepted_of_kept (kept : item.Kept isBytes) (notBad : ¬item.Bad isBytes)
    (notNamed : item ≠ .named) : item.Accepted isBytes := by
  refine ⟨?_, fun rejected => notBad rejected.bad⟩
  cases item with
  | other d =>
    rintro ⟨rfl, isNamed⟩
    exact kept isNamed
  | named => exact absurd rfl notNamed
  | _ => exact id

theorem length_flatMap_le (shorter : ∀ item ∈ items,
    (item.value isBytes).length ≤ (item.added isBytes).length) :
    (items.flatMap (StringItem.value isBytes)).length ≤
        (items.flatMap (StringItem.added isBytes)).length ∧
      ((items.flatMap (StringItem.value isBytes)).length =
          (items.flatMap (StringItem.added isBytes)).length →
        ∀ item ∈ items, (item.value isBytes).length = (item.added isBytes).length) := by
  induction items with
  | nil => exact ⟨le_rfl, fun _ _ member => absurd member not_mem_nil⟩
  | cons first items ih =>
    obtain ⟨here, shorter⟩ := forall_mem_cons.mp shorter
    obtain ⟨le, equal⟩ := ih shorter
    simp only [flatMap_cons, length_append]
    refine ⟨by omega, fun same => forall_mem_cons.mpr ⟨by omega, equal (by omega)⟩⟩

theorem added_eq_value_iff (noneBad : ∀ item ∈ items, ¬item.Bad isBytes)
    (silent : ∀ item ∈ items, ¬item.Raises isBytes) :
    items.flatMap (StringItem.added isBytes) = items.flatMap (StringItem.value isBytes) ↔
      ∀ item ∈ items, item.Kept isBytes := by
  constructor
  · intro same item member
    have shorter : ∀ item ∈ items, (item.value isBytes).length ≤ (item.added isBytes).length :=
      fun item member => value_length_le (noneBad item member)
    have lengths := (length_flatMap_le shorter).2 (congrArg length same.symm)
    exact kept_of_length (noneBad item member) (silent item member) (lengths item member)
  · intro kept
    exact flatMap_congr fun item member => added_eq_value (kept item member)

theorem isError_literalKind : (literalKind isBytes).isError = false := by
  cases isBytes <;> rfl

/-- The condition under which the token is right. -/
theorem decodesRight_iff {result : Option Scanned}
    (inBytes : isBytes = true → ∀ item ∈ items, item ≠ .code StringItem.endOfFile)
    (scans : Scans isBytes items
      (Reached isBytes (items.flatMap (StringItem.added isBytes)) rest)
      (fun tok => tok.kind.isError = true) result) :
    DecodesRight isBytes items rest result ↔
      (∃ item ∈ items, item.Rejected isBytes) ∨ .named ∈ items ∨
        ∀ item ∈ items, item.Kept isBytes := by
  by_cases someBad : ∃ item ∈ items, item.Bad isBytes
  · rw [DecodesRight, if_pos someBad]
    obtain ⟨bad, member, isBad⟩ := someBad
    by_cases refused : ∃ item ∈ items, ¬item.Accepted isBytes
    · refine ⟨fun _ => ?_, fun _ => scans.refused refused⟩
      obtain ⟨item, there, isRefused⟩ := refused
      by_cases rejected : item.Rejected isBytes
      · exact .inl ⟨item, there, rejected⟩
      · have raises : item.Raises isBytes := by_contra fun silent => isRefused ⟨silent, rejected⟩
        cases item with
        | named => exact .inr (.inl there)
        | other d => exact .inl ⟨bad, member, rejected_of_bad isBad (inBytes raises.1 bad member)⟩
        | _ => cases raises
    · have accepted : ∀ item ∈ items, item.Accepted isBytes := by simpa using refused
      obtain ⟨tok, isTok, reached⟩ := scans.accepted accepted
      constructor
      · intro allErrors
        have isError := allErrors tok isTok
        rw [reached.kind, isError_literalKind] at isError
        cases isError
      · rintro (⟨item, there, rejected⟩ | isNamed | kept)
        · exact absurd rejected (accepted item there).2
        · exact absurd trivial (accepted .named isNamed).1
        · have notEnd : bad ≠ .code StringItem.endOfFile := by
            rintro rfl
            exact kept _ member rfl
          exact absurd (rejected_of_bad isBad notEnd) (accepted bad member).2
  · have noneBad : ∀ item ∈ items, ¬item.Bad isBytes := by simpa using someBad
    have noneRejected : ∀ item ∈ items, ¬item.Rejected isBytes :=
      fun item member rejected => noneBad item member rejected.bad
    by_cases named : StringItem.named ∈ items
    · rw [DecodesRight, if_neg someBad, if_pos named]
      exact ⟨fun _ => .inr (.inl named), fun _ => scans.raises ⟨_, named, trivial⟩ noneRejected⟩
    · rw [DecodesRight, if_neg someBad, if_neg named]
      constructor
      · rintro ⟨lex, -, isResult⟩
        right
        right
        have accepted : ∀ item ∈ items, item.Accepted isBytes := by
          by_contra refused
          have isError := scans.refused (by simpa using refused) _ isResult
          rw [isError_literalKind] at isError
          cases isError
        obtain ⟨tok, isTok, reached⟩ := scans.accepted accepted
        rw [isResult] at isTok
        obtain rfl := some.inj isTok
        exact (added_eq_value_iff noneBad fun item member => (accepted item member).1).mp
          reached.vstr.symm
      · rintro (⟨item, member, rejected⟩ | isNamed | kept)
        · exact absurd rejected (noneRejected item member)
        · exact absurd isNamed named
        · have accepted : ∀ item ∈ items, item.Accepted isBytes := by
            intro item member
            refine accepted_of_kept (kept item member) (noneBad item member) ?_
            rintro rfl
            exact named member
          obtain ⟨tok, rfl, holds, isKind, isVstr⟩ := scans.accepted accepted
          refine ⟨tok.lex, holds, ?_⟩
          rw [← (added_eq_value_iff noneBad fun item member => (accepted item member).1).mpr kept,
            ← isKind, ← isVstr]

end Decodes

/-! ### The codes in bytes -/

theorem hexValue_lt {d : Nat} (digit : isXdigit d = true) : hexValue d < 16 := by
  have cases : (48 ≤ d ∧ d ≤ 57 ∨ 65 ≤ d ∧ d ≤ 70) ∨ 97 ≤ d ∧ d ≤ 102 := by
    simpa [isXdigit, isDigit] using digit
  unfold hexValue
  split_ifs <;> omega

theorem hexNumber_lt {digits : List Nat} (areDigits : ∀ d ∈ digits, isXdigit d = true)
    (two : digits.length = 2) : hexNumber digits < 256 := by
  obtain ⟨first, second, rfl⟩ := length_eq_two.mp two
  have high := hexValue_lt (areDigits first (by simp))
  have low := hexValue_lt (areDigits second (by simp))
  simp only [hexNumber, foldl_cons, foldl_nil]
  omega

variable {items : List StringItem}

theorem Body.code_lt {quote count closing : Nat} {isRaw : Bool} {bytes : List Nat}
    (body : Body quote count true isRaw closing bytes items) {n : Nat} (member : .code n ∈ items) :
    n < 512 := by
  induction body with
  | done => cases member
  | letter cooked stands after ih =>
    rcases mem_cons.mp member with isFirst | later
    · cases isFirst
      have ascii := (plainEscapes_ascii stands).2
      omega
    · exact ih later
  | octal cooked isDigit areDigits all after ih =>
    rcases mem_cons.mp member with isFirst | later
    · cases isFirst
      exact octalNumber_lt isDigit areDigits (by omega)
    · exact ih later
  | hex cooked isLetter areDigits all after ih =>
    rcases mem_cons.mp member with isFirst | later
    · cases isFirst
      obtain rfl := isLetter.resolve_right fun string => Bool.noConfusion string.1
      have byte := hexNumber_lt areDigits all
      omega
    · exact ih later
  | quote _ _ ih | plain _ _ _ _ ih
  | pair _ _ ih | newline _ _ ih
  | malformed _ _ _ _ _ _ ih | named _ _ _ ih
  | other _ _ _ _ _ _ _ ih =>
    rcases mem_cons.mp member with isFirst | later
    · cases isFirst
    · exact ih later

theorem Literals.code_ne {level : Int} {rest text : List Nat}
    (literals : Literals true level rest text items) :
    ∀ item ∈ items, item ≠ .code StringItem.endOfFile := by
  have one {after text : List Nat} {items : List StringItem} (literal : Quoted true after text items) :
      ∀ item ∈ items, item ≠ .code StringItem.endOfFile := by
    rintro item member rfl
    obtain ⟨code, isQuoted, quotes, body⟩ := literal
    have small := body.code_lt member
    rw [StringItem.endOfFile] at small
    omega
  induction literals with
  | last literal gap solid noMore => exact one literal
  | more literal gap others ih =>
    exact forall_mem_append.mpr ⟨one literal, ih⟩

/-! ### Where tokens are right -/

variable {isBytes : Bool} {level : Int} {rest text : List Nat} {items : List StringItem} {lex : Cursor}

theorem not_begins_line : ¬Begins isBytes (lineFeed :: rest) := by
  intro begins
  have solid : Solid 1 (lineFeed :: rest) := begins.solid
  rcases solid lineFeed rfl with ⟨-, outside⟩ | ⟨inner, -⟩
  · cases outside
  · exact inner rfl

theorem solid_line : Solid 0 (lineFeed :: rest) := by
  intro c first
  left
  exact ⟨(some.inj first).symm, rfl⟩

theorem bare : (false, false, ([] : List Nat)) ∈ typeCodes := by decide

/-- `'a' "\x41"` -/
def twoLiterals : List Nat :=
  [singleQuote, 'a'.toNat, singleQuote, ' '.toNat, doubleQuote, backslash, 'x'.toNat, '4'.toNat,
    '1'.toNat, doubleQuote]

theorem twoLiterals_literals : Literals false 0 [lineFeed] (twoLiterals ++ [lineFeed])
    ([.plain 'a'.toNat] ++ [.code (hexNumber ['4'.toNat, '1'.toNat])]) := by
  have first : Body singleQuote 1 false false 0 ['a'.toNat] [.plain 'a'.toNat] :=
    .plain (by decide) (by decide) (fun _ => by decide) .done
  have second : Body doubleQuote 1 false false 0
      (backslash :: 'x'.toNat :: (['4'.toNat, '1'.toNat] ++ []))
      [.code (hexNumber ['4'.toNat, '1'.toNat])] :=
    .hex rfl (.inl rfl) (by decide) rfl .done
  have blank : Gap 0 (twoLiterals.drop 4 ++ [lineFeed]) (twoLiterals.drop 3 ++ [lineFeed]) :=
    .blank rfl (by decide) .done
  refine .more (.intro bare rfl (.inl ⟨rfl, by simp⟩) first) blank ?_
  exact .last (.intro bare rfl (.inl ⟨rfl, by simp⟩) second) .done solid_line not_begins_line

/-- `'\é'`, with the two bytes of the character. -/
def escapedCharacter : List Nat := [singleQuote, backslash, 0xC3, 0xA9, singleQuote]

theorem escapedCharacter_literal :
    Literals false 0 [lineFeed] (escapedCharacter ++ [lineFeed]) [.other 0xC3, .plain 0xA9] := by
  have notHex : ¬IsHexLetter false 0xC3 := by
    rintro (isX | ⟨-, isU | isU⟩)
    · exact absurd isX (by decide)
    · exact absurd isU (by decide)
    · exact absurd isU (by decide)
  have body : Body singleQuote 1 false false 0 [backslash, 0xC3, 0xA9] [.other 0xC3, .plain 0xA9] :=
    .other rfl (by decide) (by decide) notHex rfl (fun isNamed => absurd isNamed (by decide))
      (.plain (by decide) (by decide) (fun _ => by decide) .done)
  exact .last (.intro bare rfl (.inl ⟨rfl, by simp⟩) body) .done solid_line not_begins_line

end MultiPython.Parse
