import Mathlib

/-!
# A line of a VT100 terminal

The line that the cursor of a terminal is on, as wide as it needs to be, and what the bytes that are
sent to it do: printable characters, backspace, carriage return, line feed, and the commands that move
the cursor back and erase behind it. `feed_print`, `feed_back` and `feed_erase` say what whole texts
and commands do.
-/

namespace MultiPython.Logic

open List

/-- What a terminal has received of a command: nothing, the escape character, or also a bracket and
the digits of a number. -/
inductive Pending where
  | nothing
  | escape
  | bracket (number : Nat)
deriving DecidableEq, Repr

/-- A line of a terminal with its cursor. -/
structure TerminalLine where
  cells : List Nat
  column : Nat
  pending : Pending
deriving DecidableEq, Repr

namespace TerminalLine

/-- The line of a terminal that shows a text. -/
def showing (cells : List Nat) (column : Nat) : TerminalLine :=
  { cells := cells, column := column, pending := .nothing }

/-- Put a character at the cursor. -/
def put (t : TerminalLine) (char : Nat) : TerminalLine :=
  { t with
    cells := t.cells.take t.column ++ List.replicate (t.column - t.cells.length) 32 ++ [char] ++
      t.cells.drop (t.column + 1)
    column := t.column + 1 }

/-- Receive a byte outside of a command. -/
def receiveChar (t : TerminalLine) (byte : Nat) : TerminalLine :=
  if byte = 27 then { t with pending := .escape }
  else if byte = 8 then { t with column := t.column - 1 }
  else if byte = 13 then { t with column := 0 }
  else if byte = 10 then { t with cells := [] }
  else if 32 ≤ byte ∧ byte ≤ 126 then t.put byte
  else t

/-- Receive a byte behind a bracket: a digit, the end of a command, or one that is not known. -/
def receiveParameter (t : TerminalLine) (number byte : Nat) : TerminalLine :=
  if 48 ≤ byte ∧ byte ≤ 57 then { t with pending := .bracket (number * 10 + (byte - 48)) }
  else if byte = 68 then { t with column := t.column - max number 1, pending := .nothing }
  else if byte = 75 ∧ number = 0 then
    { t with cells := t.cells.take t.column, pending := .nothing }
  else { t with pending := .nothing }

/-- Receive a byte. -/
def receive (t : TerminalLine) (byte : Nat) : TerminalLine :=
  match t.pending with
  | .nothing => t.receiveChar byte
  | .escape => { t with pending := if byte = 91 then .bracket 0 else .nothing }
  | .bracket number => t.receiveParameter number byte

/-- Receive bytes. -/
def feed (t : TerminalLine) (bytes : List Nat) : TerminalLine := bytes.foldl receive t

end TerminalLine

/-- Characters that a terminal prints. -/
def Printable (text : List Nat) : Prop := ∀ char ∈ text, 32 ≤ char ∧ char ≤ 126

theorem Printable.append {first last : List Nat} (firstIs : Printable first)
    (lastIs : Printable last) : Printable (first ++ last) := by
  intro char member
  rcases mem_append.mp member with inFirst | inLast
  · exact firstIs char inFirst
  · exact lastIs char inLast

theorem Printable.take {text : List Nat} (printable : Printable text) (count : Nat) :
    Printable (text.take count) :=
  fun char member => printable char (mem_of_mem_take member)

theorem Printable.drop {text : List Nat} (printable : Printable text) (count : Nat) :
    Printable (text.drop count) :=
  fun char member => printable char (mem_of_mem_drop member)

namespace TerminalLine

variable {cells : List Nat} {column : Nat}

@[simp]
theorem feed_nil (t : TerminalLine) : t.feed [] = t := rfl

theorem feed_cons (t : TerminalLine) (byte : Nat) (bytes : List Nat) :
    t.feed (byte :: bytes) = (t.receive byte).feed bytes := rfl

theorem feed_append (t : TerminalLine) (first last : List Nat) :
    t.feed (first ++ last) = (t.feed first).feed last :=
  foldl_append

theorem receive_printable {char : Nat} (printable : 32 ≤ char ∧ char ≤ 126) :
    (showing cells column).receive char = (showing cells column).put char := by
  show (showing cells column).receiveChar char = _
  rw [receiveChar, if_neg (by omega), if_neg (by omega), if_neg (by omega), if_neg (by omega),
    if_pos printable]

/-- A text is printed over what is behind the cursor. -/
theorem feed_print {front back : List Nat} {text : List Nat} (printable : Printable text)
    (isColumn : front.length = column) :
    (showing (front ++ back) column).feed text =
      showing (front ++ text ++ back.drop text.length) (column + text.length) := by
  induction text generalizing front back column with
  | nil => simp
  | cons char text ih =>
    have here : (showing (front ++ back) column).put char =
        showing ((front ++ [char]) ++ back.drop 1) (column + 1) := by
      subst isColumn
      have none_ : front.length - (front ++ back).length = 0 := by
        rw [length_append]
        omega
      simp only [put, showing, none_, replicate_zero, append_nil, take_left]
      rw [drop_append, drop_of_length_le (Nat.le_succ _), nil_append,
        Nat.add_sub_cancel_left]
    rw [feed_cons, receive_printable (printable char mem_cons_self), here,
      ih (fun other member => printable other (mem_cons_of_mem _ member))
        (by rw [length_append, length_singleton, isColumn]),
      append_assoc front, singleton_append, drop_drop, length_cons,
      Nat.add_assoc, Nat.add_comm 1]

/-- Backspaces move the cursor back. -/
theorem feed_backspaces (count : Nat) :
    (showing cells column).feed (List.replicate count 8) = showing cells (column - count) := by
  induction count generalizing column with
  | zero => rfl
  | succ count ih =>
    have here : (showing cells column).receive 8 = showing cells (column - 1) := rfl
    rw [replicate_succ, feed_cons, here, ih, Nat.sub_sub, Nat.add_comm 1]

/-- The digits of a number are received, the lowest one last. -/
theorem feed_digits (digits : List Nat) (small : ∀ digit ∈ digits, digit < 10) :
    ({ cells := cells, column := column, pending := .bracket 0 } : TerminalLine).feed
        ((digits.map (· + 48)).reverse) =
      { cells := cells, column := column, pending := .bracket (Nat.ofDigits 10 digits) } := by
  induction digits with
  | nil => rfl
  | cons digit digits ih =>
    have digitSmall := small digit mem_cons_self
    have here : ∀ number, ({ cells := cells, column := column, pending := .bracket number } :
        TerminalLine).receive (digit + 48) =
        { cells := cells, column := column, pending := .bracket (digit + 10 * number) } := by
      intro number
      show receiveParameter _ number (digit + 48) = _
      rw [receiveParameter, if_pos (by omega), Nat.add_sub_cancel, Nat.mul_comm, Nat.add_comm]
    rw [map_cons, reverse_cons, feed_append,
      ih fun other member => small other (mem_cons_of_mem _ member),
      feed_cons, here, feed_nil, Nat.ofDigits_cons]

/-- The command that moves the cursor back by a number. -/
theorem feed_back {count : Nat} (positive : 0 < count) :
    (showing cells column).feed
        (27 :: 91 :: (((Nat.digits 10 count).map (· + 48)).reverse ++ [68])) =
      showing cells (column - count) := by
  have start : ((showing cells column).receive 27).receive 91 =
      { cells := cells, column := column, pending := .bracket 0 } := rfl
  have digits := @feed_digits cells column (Nat.digits 10 count)
    fun digit member => Nat.digits_lt_base (by decide) member
  rw [Nat.ofDigits_digits] at digits
  rw [feed_cons, feed_cons, start, feed_append, digits, feed_cons, feed_nil]
  show receiveParameter _ count 68 = _
  rw [receiveParameter, if_neg (by decide), if_pos rfl, Nat.max_eq_left positive]
  rfl

/-- The command that erases what is behind the cursor. -/
theorem feed_erase : (showing cells column).feed [27, 91, 75] = showing (cells.take column) column :=
  rfl

/-- A text that ends its line leaves an empty line. -/
theorem feed_newline {body : List Nat}
    (plain : ∀ byte ∈ body, (32 ≤ byte ∧ byte ≤ 126) ∨ byte = 13 ∨ byte = 10) :
    (showing cells column).feed (body ++ [13, 10]) = showing [] 0 := by
  have kept : ∃ cells' column', (showing cells column).feed body = showing cells' column' := by
    induction body generalizing cells column with
    | nil => exact ⟨cells, column, rfl⟩
    | cons byte body ih =>
      have later := fun other member => plain other (mem_cons_of_mem byte member)
      rcases plain byte mem_cons_self with printable | rfl | rfl
      · rw [feed_cons, receive_printable printable]
        exact ih later
      · exact ih later
      · exact ih later
  obtain ⟨cells', column', same⟩ := kept
  rw [feed_append, same]
  rfl

end TerminalLine

end MultiPython.Logic
