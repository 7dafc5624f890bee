import Mathlib

/-!
# Characters of one to four bytes

A character is a lead byte, whose high bits say how many continuation bytes follow. Nothing is asked
of the value that is encoded. Bytes are numbers; a continuation byte has `10` in front.
-/

namespace MultiPython.Logic

open List

/-- The two high bits are `10`. -/
def isCont (c : Nat) : Bool := c &&& 0xC0 == 0x80

/-- The byte starts a character. -/
def isLead (c : Nat) : Bool := c < 0x80 || 0xC0 ≤ c && c < 0xF8

/-- How many continuation bytes follow a lead byte. -/
def following (lead : Nat) : Nat :=
  if lead < 0x80 then 0 else if lead < 0xE0 then 1 else if lead < 0xF0 then 2 else 3

/-- The bits of a lead byte that belong to the value. -/
def leadBits (lead : Nat) : Nat :=
  if lead < 0x80 then lead
  else if lead < 0xE0 then lead % 32 else if lead < 0xF0 then lead % 16 else lead % 8

/-- The bytes of one character. -/
inductive IsChar : List Nat → Prop where
  | mk {lead : Nat} {conts : List Nat} (starts : isLead lead)
      (length : conts.length = following lead) (continues : ∀ c ∈ conts, isCont c) :
      IsChar (lead :: conts)

/-- The code point of a character. -/
def charValue : List Nat → Nat
  | [] => 0
  | lead :: conts => conts.foldl (fun value c => value * 64 + c % 64) (leadBits lead)

/-- Bytes are the characters with these code points. -/
def Spells (bytes cps : List Nat) : Prop :=
  ∃ chars : List (List Nat), (∀ char ∈ chars, IsChar char) ∧ chars.flatten = bytes ∧
    chars.map charValue = cps

set_option maxRecDepth 4000 in
theorem isCont_eq_false {lead : Nat} (lead_ : isLead lead) : isCont lead = false := by
  have bound : lead < 0xF8 := by
    simp only [isLead, Bool.or_eq_true, Bool.and_eq_true, decide_eq_true_eq] at lead_
    omega
  have all : ∀ c < 0xF8, isLead c → isCont c = false := by decide
  exact all lead bound lead_

/-- A character is one lead byte and then continuation bytes. -/
theorem IsChar.shape {char : List Nat} (isChar : IsChar char) :
    ∃ lead conts, char = lead :: conts ∧ isCont lead = false ∧ ∀ c ∈ conts, isCont c := by
  obtain ⟨lead_, -, conts⟩ := isChar
  exact ⟨_, _, rfl, isCont_eq_false lead_, conts⟩

theorem IsChar.ne_nil {char : List Nat} (isChar : IsChar char) : char ≠ [] := by
  obtain ⟨lead, conts, rfl, -⟩ := isChar.shape
  exact cons_ne_nil _ _

section Text

variable {chars : List (List Nat)}

section

variable (text : ∀ char ∈ chars, IsChar char)

include text

/-- What follows a character does not start with a continuation byte. -/
theorem head_flatten :
    ∀ c ∈ chars.flatten.head?, isCont c = false := by
  cases chars with
  | nil => simp
  | cons char chars =>
    obtain ⟨lead, conts, rfl, isFirst, -⟩ := (text _ mem_cons_self).shape
    simp [isFirst]

/-- The continuation bytes in front of text are those of the character before. -/
theorem takeWhile_conts {conts : List Nat} (continues : ∀ c ∈ conts, isCont c) :
    (conts ++ chars.flatten).takeWhile isCont = conts := by
  rw [takeWhile_append_of_pos continues]
  have none_ : chars.flatten.takeWhile isCont = [] := by
    cases isText : chars.flatten with
    | nil => rfl
    | cons c rest =>
      have first := head_flatten text c (by simp [isText])
      rw [takeWhile_cons_of_neg (by simp [first])]
  rw [none_, append_nil]

theorem dropWhile_conts {conts : List Nat} (continues : ∀ c ∈ conts, isCont c) :
    (conts ++ chars.flatten).dropWhile isCont = chars.flatten := by
  rw [dropWhile_append_of_pos continues]
  cases isText : chars.flatten with
  | nil => rfl
  | cons c rest =>
    have first := head_flatten text c (by simp [isText])
    rw [dropWhile_cons_of_neg (by simp [first])]

/-- Every character has one byte that does not continue one. -/
theorem countP_flatten :
    chars.flatten.countP (fun c => !isCont c) = chars.length := by
  induction chars with
  | nil => rfl
  | cons char chars ih =>
    obtain ⟨lead, conts, rfl, isFirst, continues⟩ := (text _ mem_cons_self).shape
    have none_ : conts.countP (fun c => !isCont c) = 0 := by
      rw [countP_eq_zero]
      intro c member
      simp [continues c member]
    rw [flatten_cons, countP_append, countP_cons, none_, isFirst,
      ih fun char member => text char (mem_cons_of_mem _ member)]
    simp only [length_cons, Bool.not_false, if_true]
    omega

/-- The bytes of some characters spell their values. -/
theorem Spells.flatten :
    Spells chars.flatten (chars.map charValue) :=
  ⟨chars, text, rfl, rfl⟩

end

end Text

end MultiPython.Logic
