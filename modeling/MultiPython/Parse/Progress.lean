import MultiPython.Parse.Cursor

/-!
# The loops of the lexer get on

Every round of a loop of the lexer leaves fewer characters to come, so that the loops of the model
end for the reason that those of the code do.
-/

namespace MultiPython.Parse

open Logic Str Option

variable {lex : Cursor} {c : Nat} {nestedBracketLevel : Int}

theorem nextChar_left_mono (lex : Cursor) : (nextChar lex).left ≤ lex.left :=
  (Nat.le_add_right _ _).trans (nextChar_left_le lex)

theorem nextChar_left_here (here : lex.chr0 = some c) : (nextChar lex).left < lex.left :=
  nextChar_left (by simp [here])

theorem iterate_nextChar_left (count : Nat) (lex : Cursor) :
    (nextChar^[count] lex).left ≤ lex.left := by
  induction count generalizing lex with
  | zero => exact le_rfl
  | succ count ih =>
    exact (ih _).trans (nextChar_left_mono lex)

theorem skipWhitespace_left (lex : Cursor) (nestedBracketLevel : Int) (stopAtNewline : Bool) :
    (skipWhitespace lex nestedBracketLevel stopAtNewline).2.left ≤ lex.left := by
  refine whileSome_invariant (fun state : Bool × Cursor => state.2.left ≤ lex.left) le_rfl ?_
  rintro ⟨had, reached⟩ next before gives
  exact (skipBody_cases gives).left.le.trans before

/-! ## Literals -/

theorem getHex_left (numDigits : Nat) (lex : Cursor) (num : Nat) :
    (getHex numDigits lex num).1.left ≤ lex.left := by
  induction numDigits generalizing lex num with
  | zero => exact le_rfl
  | succ numDigits ih =>
    have step := nextChar_left_mono lex
    simp only [getHex]
    cases (nextChar lex).chr0 with
    | none => exact step
    | some digit =>
      simp only
      split_ifs
      · exact (ih _ _).trans step
      · exact step

theorem getOctal_left (digits : Nat) (lex : Cursor) (num : Nat) :
    (getOctal digits lex num).1.left ≤ lex.left := by
  induction digits generalizing lex num with
  | zero => exact le_rfl
  | succ digits ih =>
    rw [getOctal]
    cases lex.chr1 with
    | none => exact le_rfl
    | some digit =>
      simp only
      split_ifs
      · exact (ih _ _).trans (nextChar_left_mono lex)
      · exact le_rfl

theorem hexEscape_left (lit : Literal) (c : Nat) : (hexEscape lit c).1.lex.left ≤ lit.lex.left := by
  have digits := getHex_left (hexDigits c) lit.lex 0
  rw [hexEscape]
  generalize getHex (hexDigits c) lit.lex 0 = result at digits ⊢
  obtain ⟨lex, num⟩ := result
  cases num with
  | none => exact digits
  | some num => exact digits

theorem parseEscape_left {isRaw : Bool} {lit after : Literal} {added : Unichar}
    (gives : parseEscape isRaw lit = some (after, added)) : after.lex.left ≤ lit.lex.left := by
  rw [parseEscape] at gives
  cases here : lit.lex.chr0 with
  | none =>
    rw [here] at gives
    cases gives
    exact le_rfl
  | some c =>
    simp only [here] at gives
    cases plain : plainEscapes.lookup c with
    | some stands =>
      simp only [plain] at gives
      split_ifs at gives
      all_goals
        cases gives
        exact le_rfl
    | none =>
      simp only [plain] at gives
      split_ifs at gives with raw line double hex name octal
      · cases gives
        exact le_rfl
      · cases gives
        exact le_rfl
      · cases gives
        exact le_rfl
      · have digits := hexEscape_left lit c
        rw [some.inj gives] at digits
        exact digits
      · cases gives
        exact getOctal_left 2 lit.lex (c - 48)
      · cases gives
        exact le_rfl

theorem addEscaped_lex (lit : Literal) (added : Unichar) : (addEscaped lit added).lex = lit.lex := by
  cases added with
  | none => rfl
  | some c =>
    rw [addEscaped]
    split_ifs <;> rfl

theorem literalBody_left {quoteChar numQuotes : Nat} {isRaw : Bool} {lit next : Option Literal}
    (gives : literalBody quoteChar numQuotes isRaw lit = some next) :
    literalLeft next < literalLeft lit := by
  cases lit with
  | none => cases gives
  | some lit =>
    cases here : lit.lex.chr0 with
    | none =>
      simp only [literalBody, here] at gives
      cases gives
    | some c =>
      have step := nextChar_left_here here
      simp only [literalBody, here] at gives
      split_ifs at gives with ends quote escape
      · cases gives
        exact Nat.succ_lt_succ step
      · cases escaped : parseEscape isRaw { lit with lex := nextChar lit.lex, nClosing := 0 } with
        | none =>
          rw [escaped] at gives
          cases gives
          exact Nat.succ_pos _
        | some result =>
          obtain ⟨after, added⟩ := result
          rw [escaped] at gives
          cases gives
          have passed := parseEscape_left escaped
          have last := nextChar_left_mono (addEscaped after added).lex
          rw [addEscaped_lex] at last
          simp only [map_some, literalLeft, addEscaped_lex]
          exact Nat.succ_lt_succ ((last.trans passed).trans_lt step)
      · cases gives
        exact Nat.succ_lt_succ step

theorem parseQuoted_left {quoteChar numQuotes : Nat} {isRaw : Bool} {lit after : Literal}
    (gives : parseQuoted quoteChar numQuotes isRaw lit = some after) :
    after.lex.left ≤ lit.lex.left := by
  obtain ⟨last, loop, rfl⟩ := map_eq_some_iff.mp gives
  have bound : literalLeft (whileSome (literalBody quoteChar numQuotes isRaw) literalLeft
      (some lit)) ≤ literalLeft (some lit) := by
    refine whileSome_invariant (fun reached => literalLeft reached ≤ literalLeft (some lit))
      le_rfl ?_
    intro reached next before step
    exact (literalBody_left step).le.trans before
  rw [loop] at bound
  exact Nat.le_of_succ_le_succ bound

theorem parseStringLiteral_left {kind : TokenKind} {vstr : List Nat} {isRaw : Bool}
    {after : Literal} (gives : parseStringLiteral lex kind vstr isRaw = some after) :
    after.lex.left ≤ (nextChar lex).left := by
  simp only [parseStringLiteral] at gives
  split_ifs at gives
  all_goals
    have passed := parseQuoted_left gives
    simp only at passed
  · exact passed.trans ((nextChar_left_mono _).trans (nextChar_left_mono _))
  · exact passed
  · exact passed.trans ((nextChar_left_mono _).trans (nextChar_left_mono _))
  · exact passed

theorem nextLiteral_left {tok after : Scanned} (here : tok.lex.chr0 = some c)
    (gives : nextLiteral nestedBracketLevel tok = some after) : after.lex.left < tok.lex.left := by
  simp only [nextLiteral] at gives
  obtain ⟨lit, parsed, rfl⟩ := map_eq_some_iff.mp gives
  have code := iterate_nextChar_left (typeCode tok.lex).2.2 (nextChar tok.lex)
  rw [← Function.iterate_succ_apply, Function.iterate_succ_apply'] at code
  calc (skipWhitespace lit.lex nestedBracketLevel true).2.left
      ≤ lit.lex.left := skipWhitespace_left _ _ _
    _ ≤ (nextChar (nextChar^[(typeCode tok.lex).2.2] tok.lex)).left := parseStringLiteral_left parsed
    _ ≤ (nextChar tok.lex).left := code
    _ < tok.lex.left := nextChar_left_here here

theorem literalsBody_left {tok next : Option Scanned}
    (gives : literalsBody nestedBracketLevel tok = some next) :
    scannedLeft next < scannedLeft tok := by
  cases tok with
  | none => cases gives
  | some tok =>
    simp only [literalsBody] at gives
    split_ifs at gives with literal
    cases gives
    cases read : nextLiteral nestedBracketLevel tok with
    | none => exact Nat.succ_pos _
    | some after =>
      have more : tok.lex.chr0 ≠ none := by
        intro ends
        have opens := literal.1
        simp [isStringOrBytes, ends, charIs] at opens
      obtain ⟨c, here⟩ := ne_none_iff_exists'.mp more
      exact Nat.succ_lt_succ (nextLiteral_left here read)

/-! ## Names and numbers -/

theorem nameBody_left {tok next : Scanned} (gives : nameBody tok = some next) :
    next.lex.left < tok.lex.left := by
  cases here : tok.lex.chr0 with
  | none =>
    simp only [nameBody, here] at gives
    cases gives
  | some c =>
    simp only [nameBody, here] at gives
    split_ifs at gives
    cases gives
    exact nextChar_left_here here

theorem readExponent_left (tok : Scanned) :
    (readExponent tok).lex.left ≤ (nextChar tok.lex).left := by
  simp only [readExponent]
  cases (nextChar tok.lex).chr0 with
  | none => exact le_rfl
  | some sign =>
    simp only
    split_ifs
    · exact nextChar_left_mono _
    · exact le_rfl

theorem numberBody_left {forcedInteger : Bool} {tok next : Scanned}
    (gives : numberBody forcedInteger tok = some next) : next.lex.left < tok.lex.left := by
  cases here : tok.lex.chr0 with
  | none =>
    simp only [numberBody, here] at gives
    cases gives
  | some c =>
    have step := nextChar_left_here here
    simp only [numberBody, here] at gives
    split_ifs at gives with exponent
    · cases gives
      exact (readExponent_left tok).trans_lt step
    all_goals
      cases gives
      exact step

end MultiPython.Parse
