import MultiPython.Parse.LineEndings

/-!
# The lexer in front of a text

What the cursor still has to give, after `next_char` has normalized it, and what the characters of
the window are.
-/

namespace MultiPython.Parse

open Logic Str List

/-- The cursor is in front of this text, which is the rest of the file as `next_char` gives it. -/
structure Holds (text : List Nat) (lex : Cursor) : Prop where
  bytes : ∀ c ∈ text, c < 256 ∧ c ≠ carriageReturn
  closed : text ≠ [] → text.getLast? = some lineFeed
  chr0 : lex.chr0 = text[0]?
  chr1 : lex.chr1 = text[1]?
  rest : ahead lex.chr2 lex.rest = (text[2]?, text.drop 3)

section Holds

variable {lex : Cursor} {text : List Nat} {c : Nat}

theorem slide_text (bytes : ∀ c ∈ text, c < 256 ∧ c ≠ carriageReturn)
    (closed : text ≠ [] → text.getLast? = some lineFeed) :
    slide text[1]? (text.drop 2) = (text[1]?, text[2]?, text.drop 3) := by
  rcases text with _ | ⟨a, _ | ⟨b, rest⟩⟩
  · rfl
  · rfl
  · have notReturn : b ≠ carriageReturn := (bytes b (by simp)).2
    have ends : ¬(rest = [] ∧ b ≠ lineFeed) := by
      rintro ⟨rfl, inner⟩
      exact inner (by simpa using closed (by simp))
    have slid := slide_char notReturn rest
    rw [if_neg ends] at slid
    cases rest with
    | nil => exact slid
    | cons c rest => exact slid

theorem Holds.tail (holds : Holds (c :: text) lex) : Holds text (nextChar lex) := by
  obtain ⟨bytes, closed, chr0, chr1, rest⟩ := holds
  have bytes : ∀ d ∈ text, d < 256 ∧ d ≠ carriageReturn :=
    fun d member => bytes d (mem_cons_of_mem _ member)
  have closed : text ≠ [] → text.getLast? = some lineFeed := by
    intro more
    rw [← closed (by simp), getLast?_cons_of_ne_nil more]
  have moves := slide_ahead lex.chr2 lex.rest
  rw [rest] at moves
  have slid := slide_text bytes closed
  have same : slide (c :: text)[2]? ((c :: text).drop 3) = (text[1]?, text[2]?, text.drop 3) := slid
  rw [same] at moves
  exact ⟨bytes, closed, chr1, (congrArg Prod.fst moves).symm, (congrArg Prod.snd moves).symm⟩

theorem Holds.here (holds : Holds (c :: text) lex) : lex.chr0 = some c := holds.chr0

theorem Holds.byte (holds : Holds (c :: text) lex) : c < 256 :=
  (holds.bytes c mem_cons_self).1

theorem Holds.drop {front : List Nat} (holds : Holds (front ++ text) lex) :
    Holds text (nextChar^[front.length] lex) := by
  induction front generalizing lex with
  | nil => exact holds
  | cons c front ih => exact ih holds.tail

theorem Holds.chr2 (holds : Holds text lex) : charIs isQuote lex.chr2 = charIs isQuote text[2]? := by
  have seen := normal_chr2 lex
  rw [Cursor.normal, holds.rest] at seen
  exact seen.symm

theorem normalized_bytes (text : List Nat) (bytes : ∀ c ∈ text, c < 256) (afterReturn : Bool) :
    ∀ c ∈ normalized afterReturn text, c < 256 ∧ c ≠ carriageReturn := by
  induction text generalizing afterReturn with
  | nil => exact fun _ none => absurd none not_mem_nil
  | cons first rest ih =>
    obtain ⟨byte, bytes⟩ := forall_mem_cons.mp bytes
    have later := ih bytes
    have line : lineFeed < 256 ∧ lineFeed ≠ carriageReturn := by decide
    rw [normalized]
    split_ifs with joined isReturn last
    · exact later false
    · exact forall_mem_cons.mpr ⟨line, later true⟩
    · exact forall_mem_cons.mpr
        ⟨⟨byte, isReturn⟩, forall_mem_cons.mpr ⟨line, fun _ none => absurd none not_mem_nil⟩⟩
    · exact forall_mem_cons.mpr ⟨⟨byte, isReturn⟩, later false⟩

theorem normalized_closed (text : List Nat) (afterReturn : Bool)
    (more : normalized afterReturn text ≠ []) :
    (normalized afterReturn text).getLast? = some lineFeed := by
  induction text generalizing afterReturn with
  | nil => exact absurd rfl more
  | cons first rest ih =>
    rw [normalized] at more ⊢
    split_ifs at more ⊢ with joined isReturn last
    · exact ih false more
    · by_cases empty : normalized true rest = []
      · rw [empty]
        rfl
      · rw [getLast?_cons_of_ne_nil empty, ih true empty]
    · rfl
    · have notEmpty : normalized false rest ≠ [] ∨ rest = [] ∧ first = lineFeed := by
        by_cases nothing : rest = []
        · exact .inr ⟨nothing, by_contra fun inner => last ⟨nothing, inner⟩⟩
        · left
          intro empty
          exact normalized_head_ne_none nothing (by rw [empty]; rfl)
      rcases notEmpty with notEmpty | ⟨rfl, rfl⟩
      · rw [getLast?_cons_of_ne_nil notEmpty, ih false notEmpty]
      · rfl

theorem holds_start (bytes : ∀ c ∈ text, c < 256) :
    Holds (normalized false (0 :: text)).tail (startCursor text) := by
  obtain ⟨rest, dummy⟩ : ∃ rest, normalized false (0 :: text) = 0 :: rest := by
    rw [normalized_cons, if_neg (by decide)]
    split_ifs
    · exact ⟨_, rfl⟩
    · exact ⟨_, rfl⟩
  have all := normalized_bytes (0 :: text) (forall_mem_cons.mpr ⟨by decide, bytes⟩) false
  have closed := normalized_closed (0 :: text) false (by rw [dummy]; simp)
  have first : Holds (0 :: 0 :: normalized false (0 :: text))
      ⟨some 0, some 0, some 0, text, 1, -2, false⟩ := by
    refine ⟨?_, ?_, rfl, rfl, ?_⟩
    · simp only [forall_mem_cons]
      exact ⟨by decide, by decide, all⟩
    · intro _
      rw [← closed, dummy]
      rfl
    · rw [ahead, dummy]
      rfl
  rw [dummy] at first ⊢
  exact first.tail.tail.tail

end Holds

end MultiPython.Parse
