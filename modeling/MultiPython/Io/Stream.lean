import MultiPython.Logic.Calls
import MultiPython.Str.Unicode

/-!
# Reading from streams

`py/stream.c` over a stream that blocks: a read gives any positive number of bytes up to what is
asked for, and nothing at the end only. What is read is collected in a string builder, of which only
the contents matter here; there is always memory for it.
-/

namespace MultiPython.Io

open Logic Str List

/-- What is left to read, and how much the next reads give. -/
structure Source where
  rest : List Nat
  answers : List Nat
deriving DecidableEq, Repr

/-- `read` of the stream's protocol. -/
def Source.read (s : Source) (size : Nat) : List Nat × Source :=
  let count := min (max (s.answers.headD size) 1) size
  (s.rest.take count, { rest := s.rest.drop count, answers := s.answers.tail })

/-- `mp_stream_rw`, for reading. -/
def streamRw (s : Source) (size : Nat) : List Nat × Source :=
  if size = 0 then ([], s)
  else
    match s.read size with
    | (got, next) =>
      if _done : got = [] then ([], next)
      else
        let (more, last) := streamRw next (size - got.length)
        (got ++ more, last)
termination_by size
decreasing_by
  have positive := List.length_pos_iff.mpr _done
  omega

/-- The size of a character by its first byte, as `stream_read_generic` finds it. -/
def streamCharLen (b : Nat) : Nat :=
  if b &&& 0x80 = 0 then 1
  else if b &&& 0xE0 = 0xC0 then 2
  else if b &&& 0xF0 = 0xE0 then 3
  else if b &&& 0xF8 = 0xF0 then 4
  else 5

theorem streamCharLen_pos (b : Nat) : 0 < streamCharLen b := by
  unfold streamCharLen
  split_ifs <;> omega

/-- The loop of `stream_read_generic` that counts the characters behind an offset: the offset behind
the last whole one, how many are still to be read, and how many bytes to ask for. -/
def countWhole (buf : List Nat) (off sz : Nat) : Nat × Nat × Nat :=
  let n := streamCharLen (buf.getD off 0)
  if off + n ≤ buf.length then
    if off + n ≥ buf.length then (off + n, sz - 1, sz - 1) else countWhole buf (off + n) (sz - 1)
  else (off, sz, (off + n - buf.length) + (sz - 1))
termination_by buf.length - off
decreasing_by
  have positive := streamCharLen_pos (buf.getD off 0)
  omega

variable {size : Nat}

theorem Source.read_spec (s : Source) (positive : 0 < size) :
    ∃ got next, s.read size = (got, next) ∧ got ++ next.rest = s.rest ∧ got.length ≤ size ∧
      (got = [] → s.rest = []) := by
  refine ⟨_, _, rfl, take_append_drop _ _, ?_, ?_⟩
  · rw [length_take]
    omega
  · intro nothing
    rcases take_eq_nil_iff.mp nothing with none_ | empty
    · omega
    · exact empty

/-- However the reads are split, everything up to the request is read. -/
theorem streamRw_spec (s : Source) (size : Nat) :
    ∃ next, streamRw s size = (s.rest.take size, next) ∧ next.rest = s.rest.drop size := by
  induction size using Nat.strong_induction_on generalizing s with
  | _ size ih =>
    rw [streamRw]
    by_cases zero : size = 0
    · subst zero
      exact ⟨s, by simp, rfl⟩
    · obtain ⟨got, next, reads, split, small, atEnd⟩ := s.read_spec (Nat.pos_of_ne_zero zero)
      simp only [if_neg zero, reads]
      by_cases done : got = []
      · have empty := atEnd done
        rw [dif_pos done]
        subst done
        refine ⟨next, by rw [empty, take_nil], ?_⟩
        rw [nil_append] at split
        rw [split, empty, drop_nil]
      · have positive := length_pos_iff.mpr done
        obtain ⟨last, more, rest⟩ := ih (size - got.length) (by omega) next
        rw [dif_neg done, more]
        refine ⟨last, ?_, ?_⟩
        · rw [← split, take_append, take_of_length_le small]
        · rw [rest, ← split, drop_append, drop_of_length_le small, nil_append]

theorem streamRw_shorter {s next : Source} {got : List Nat} (reads : streamRw s size = (got, next))
    (some_ : got ≠ []) : next.rest.length < s.rest.length := by
  obtain ⟨next, same, rest⟩ := streamRw_spec s size
  cases reads.symm.trans same
  have positive := length_pos_iff.mpr some_
  rw [length_take] at positive
  rw [rest, length_drop]
  omega

theorem Source.read_shorter {s next : Source} {got : List Nat} (reads : s.read size = (got, next))
    (some_ : got ≠ []) : next.rest.length < s.rest.length := by
  cases reads
  have positive := length_pos_iff.mpr some_
  rw [length_take] at positive
  show (s.rest.drop _).length < _
  rw [length_drop]
  omega

/-- The loop of `stream_read_generic` for text, with the builder, the number of characters and of
bytes that are still to be read, and the offset behind the last whole character. -/
def readTextLoop (s : Source) (vstr : List Nat) (sz moreBytes lastBufOffset : Nat) :
    List Nat × Source :=
  if moreBytes = 0 then (vstr, s)
  else
    match _reads : streamRw s moreBytes with
    | (got, next) =>
      if _done : got = [] then (vstr, next)
      else
        let (last, sz, more) := countWhole (vstr ++ got) lastBufOffset sz
        readTextLoop next (vstr ++ got) sz more last
termination_by s.rest.length
decreasing_by exact streamRw_shorter _reads _done

/-- `stream_read_generic`, for a size that is not negative. -/
def streamReadGeneric (isText : Bool) (s : Source) (sz : Nat) : List Nat × Source :=
  if isText then readTextLoop s [] sz sz 0 else streamRw s sz

def defaultBufferSize : Nat := 256

/-- The loop of `stream_readall`. -/
def readallLoop (s : Source) (vstr : List Nat) (currentRead : Nat) : List Nat × Source :=
  match _reads : s.read currentRead with
  | (got, next) =>
    if _done : got = [] then (vstr, next)
    else if got.length < currentRead then
      readallLoop next (vstr ++ got) (currentRead - got.length)
    else readallLoop next (vstr ++ got) defaultBufferSize
termination_by s.rest.length
decreasing_by
  · exact Source.read_shorter _reads _done
  · exact Source.read_shorter _reads _done

def streamReadall (s : Source) : List Nat × Source := readallLoop s [] defaultBufferSize

/-- The loop of `stream_unbuffered_readline`; no maximum is -1. -/
def readlineLoop (s : Source) (vstr : List Nat) (maxSize : Option Nat) : List Nat × Source :=
  if maxSize = some 0 then (vstr, s)
  else
    match _reads : s.read 1 with
    | (got, next) =>
      if _done : got = [] then (vstr, next)
      else if got = [0x0A] then (vstr ++ got, next)
      else readlineLoop next (vstr ++ got) (maxSize.map (· - 1))
termination_by s.rest.length
decreasing_by exact Source.read_shorter _reads _done

/-- `stream_unbuffered_readline`. -/
def streamReadline (s : Source) (maxSize : Option Nat) : List Nat × Source :=
  readlineLoop s [] maxSize

/-- The calls that read. -/
inductive StreamCall where
  | read (n : Nat)
  | readall
  | readline (maxSize : Option Nat)
  | readinto (len : Nat)
deriving DecidableEq, Repr

/-- Perform a call: what it returns, or stores for `readinto`, and what is left. -/
def streamCall (isText : Bool) (s : Source) : StreamCall → List Nat × Source
  | .read n => streamReadGeneric isText s n
  | .readall => streamReadall s
  | .readline maxSize => streamReadline s maxSize
  | .readinto len => streamRw s len

/-- The pieces that some calls return, and what is left. -/
def streamCalls (isText : Bool) (s : Source) : List StreamCall → List (List Nat) × Source
  | [] => ([], s)
  | call :: calls =>
    let (piece, next) := streamCall isText s call
    let (pieces, last) := streamCalls isText next calls
    (piece :: pieces, last)

/-! ## Pieces of the content -/

/-- The bytes up to and including the next newline. -/
def upToNewline : List Nat → List Nat
  | [] => []
  | c :: rest => if c = 0x0A then [c] else c :: upToNewline rest

/-- The first so many, or all. -/
def takeAtMost (maxSize : Option Nat) (bytes : List Nat) : List Nat :=
  match maxSize with
  | none => bytes
  | some n => bytes.take n

/-- What a call should return from the bytes that are left. For text, `read` never takes more
characters than it is asked for, and exactly the first ones of what is left if that is text. -/
def Returns (isText : Bool) (rest : List Nat) (piece : List Nat) : StreamCall → Prop
  | .read n =>
    if isText then
      piece.countP (fun c => !isCont c) ≤ n ∧
        ∀ chars : List (List Nat), (∀ char ∈ chars, IsChar char) → chars.flatten = rest →
          piece = (chars.take n).flatten
    else piece = rest.take n
  | .readall => piece = rest
  | .readline maxSize => piece = takeAtMost maxSize (upToNewline rest)
  | .readinto len => piece = rest.take len

/-- A text read starts where a character does. -/
def AtBoundary (isText : Bool) (s : Source) : StreamCall → Prop
  | .read n => isText = true → n = 0 ∨ utf8Check s.rest = true
  | _ => True

theorem readallLoop_spec (s : Source) (vstr : List Nat) {currentRead : Nat}
    (positive : 0 < currentRead) :
    ∃ next, readallLoop s vstr currentRead = (vstr ++ s.rest, next) ∧ next.rest = [] := by
  induction size : s.rest.length using Nat.strong_induction_on generalizing s vstr currentRead with
  | _ size ih =>
    obtain ⟨got, next, reads, split, small, atEnd⟩ := s.read_spec positive
    rw [readallLoop, reads]
    dsimp only
    by_cases done : got = []
    · have empty := atEnd done
      subst done
      rw [dif_pos rfl, empty, append_nil]
      exact ⟨next, rfl, split.trans empty⟩
    · have shorter := Source.read_shorter reads done
      rw [size] at shorter
      rw [dif_neg done, ← split]
      simp only [← append_assoc]
      split_ifs with less
      · exact ih _ shorter next _ (by omega) rfl
      · exact ih _ shorter next _ (by decide) rfl

theorem readlineLoop_spec (s : Source) (vstr : List Nat) (maxSize : Option Nat) :
    ∃ next piece, readlineLoop s vstr maxSize = (vstr ++ piece, next) ∧
      piece = takeAtMost maxSize (upToNewline s.rest) ∧ piece ++ next.rest = s.rest := by
  induction size : s.rest.length using Nat.strong_induction_on generalizing s vstr maxSize with
  | _ size ih =>
    rw [readlineLoop]
    by_cases stop : maxSize = some 0
    · refine ⟨s, [], by rw [if_pos stop, append_nil], ?_, rfl⟩
      rw [stop, takeAtMost, take_zero]
    · obtain ⟨got, next, reads, split, small, atEnd⟩ := s.read_spec Nat.one_pos
      rw [if_neg stop, reads]
      dsimp only
      by_cases done : got = []
      · have empty := atEnd done
        subst done
        refine ⟨next, [], by rw [dif_pos rfl, append_nil], ?_, split⟩
        rw [empty, upToNewline]
        cases maxSize <;> simp [takeAtMost]
      · have shorter := Source.read_shorter reads done
        rw [size] at shorter
        obtain ⟨c, rfl⟩ := length_eq_one_iff.mp
          (Nat.le_antisymm small (length_pos_iff.mpr done))
        rw [dif_neg done, ← split, singleton_append, upToNewline]
        -- The first byte is in the line, as the maximum is not 0.
        have first : ∀ line, takeAtMost maxSize (c :: line) =
            c :: takeAtMost (maxSize.map (· - 1)) line := by
          intro line
          cases maxSize with
          | none => rfl
          | some n =>
            cases n with
            | zero => exact absurd rfl stop
            | succ n => rfl
        by_cases newline : c = 0x0A
        · subst newline
          refine ⟨next, [0x0A], by simp, ?_, rfl⟩
          rw [if_pos rfl, first]
          cases maxSize <;> simp [takeAtMost]
        · rw [if_neg (by simpa using newline), if_neg newline, first]
          obtain ⟨last, piece, returns, isPiece, whole⟩ :=
            ih _ shorter next (vstr ++ [c]) (maxSize.map (· - 1)) rfl
          refine ⟨last, c :: piece, ?_, by rw [isPiece], by rw [cons_append, whole]⟩
          rw [returns, append_assoc, singleton_append]

/-! ## Reading characters -/

/-- Some bytes of the first character of a text, and those that are missing of it. -/
def BrokenAt (todo : List (List Nat)) (part missing : List Nat) : Prop :=
  (part = [] ∧ missing = []) ∨
    (part ≠ [] ∧ missing ≠ [] ∧ ∃ later, todo = (part ++ missing) :: later)

section Text

variable {chars : List (List Nat)} {part missing front : List Nat}

set_option maxRecDepth 4000 in
theorem streamCharLen_lead : ∀ b < 0xF8, isLead b → streamCharLen b = 1 + following b := by
  decide

/-- The size of a character can be found in its first byte. -/
theorem streamCharLen_spec {char : List Nat} (isChar : IsChar char) (some_ : part ≠ [])
    (starts : part <+: char) : streamCharLen (part.headD 0) = char.length := by
  obtain ⟨isFirst, length, -⟩ := isChar
  rename_i lead conts
  cases part with
  | nil => exact absurd rfl some_
  | cons b part =>
    obtain ⟨rfl, -⟩ := cons_prefix_cons.mp starts
    rw [headD_cons, streamCharLen_lead b (isLead_lt isFirst) isFirst, length_cons, length]
    omega

/-- A prefix of a text is some of its characters and a part of the next one, and not more of them
than bytes. -/
theorem exists_broken (text : ∀ char ∈ chars, IsChar char) {p rest : List Nat}
    (split : p ++ rest = chars.flatten) {count : Nat} (few : p.length ≤ count) :
    ∃ whole todo part missing, chars = whole ++ todo ∧ p = whole.flatten ++ part ∧
      BrokenAt todo part missing ∧ whole.length ≤ count ∧ (part ≠ [] → whole.length < count) := by
  induction chars generalizing p count with
  | nil =>
    obtain ⟨rfl, -⟩ := append_eq_nil_iff.mp split
    exact ⟨[], [], [], [], rfl, rfl, Or.inl ⟨rfl, rfl⟩, Nat.zero_le _, fun some_ => absurd rfl some_⟩
  | cons char chars ih =>
    have later : ∀ char ∈ chars, IsChar char :=
      fun char member => text char (mem_cons_of_mem _ member)
    have some_ := length_pos_iff.mpr (text char mem_cons_self).ne_nil
    rw [flatten_cons] at split
    rcases append_eq_append_iff.mp split with ⟨missing, rfl, -⟩ | ⟨more, rfl, rest_⟩
    · by_cases none_ : p = []
      · exact ⟨[], (p ++ missing) :: chars, [], [], rfl, none_, Or.inl ⟨rfl, rfl⟩, Nat.zero_le _,
          fun some_ => absurd rfl some_⟩
      · have positive := length_pos_iff.mpr none_
        by_cases all : missing = []
        · refine ⟨[p ++ missing], chars, [], [], rfl, by simp [all], Or.inl ⟨rfl, rfl⟩, ?_,
            fun some_ => absurd rfl some_⟩
          rw [length_singleton]
          omega
        · refine ⟨[], (p ++ missing) :: chars, p, missing, rfl, rfl,
            Or.inr ⟨none_, all, chars, rfl⟩, Nat.zero_le _, fun _ => ?_⟩
          rw [length_nil]
          omega
    · rw [length_append] at few
      obtain ⟨whole, todo, part, missing, rfl, rfl, broken, bound, less⟩ :=
        @ih later more rest_.symm (count - 1) (by omega)
      refine ⟨char :: whole, todo, part, missing, rfl, by simp, broken, ?_, fun some_ => ?_⟩
      · rw [length_cons]
        omega
      · have := less some_
        rw [length_cons]
        omega

variable {todo : List (List Nat)}

theorem countWhole_spec (text : ∀ char ∈ chars, IsChar char) (todoText : ∀ char ∈ todo, IsChar char)
    (broken : BrokenAt todo part missing) (some_ : chars.flatten ++ part ≠ []) (sz : Nat) :
    countWhole (front ++ (chars.flatten ++ part)) front.length sz =
      ((front ++ chars.flatten).length, sz - chars.length,
        if part = [] then sz - chars.length else missing.length + (sz - chars.length - 1)) := by
  induction chars generalizing front sz with
  | nil =>
    rw [flatten_nil, nil_append] at some_ ⊢
    rcases broken with ⟨none_, -⟩ | ⟨-, someMissing, later, rfl⟩
    · exact absurd none_ some_
    · have positive := length_pos_iff.mpr someMissing
      have first : (front ++ part).getD front.length 0 = part.headD 0 := by
        cases part with
        | nil => exact absurd rfl some_
        | cons b part => simp
      have size := streamCharLen_spec (todoText _ mem_cons_self) some_
        (prefix_append part missing)
      rw [countWhole, first, size]
      simp only [length_append]
      rw [if_neg (by omega), if_neg some_]
      simp only [length_nil, Nat.add_zero, Nat.sub_zero, Prod.mk.injEq, true_and]
      omega
  | cons char chars ih =>
    have isChar := text char mem_cons_self
    have later : ∀ char ∈ chars, IsChar char :=
      fun char member => text char (mem_cons_of_mem _ member)
    have first : (front ++ ((char :: chars).flatten ++ part)).getD front.length 0 =
        char.headD 0 := by
      obtain ⟨lead, conts, rfl, -⟩ := isChar.shape
      simp
    have size := streamCharLen_spec isChar isChar.ne_nil (prefix_refl char)
    rw [countWhole, first, size]
    have buffer : front ++ ((char :: chars).flatten ++ part) =
        (front ++ char) ++ (chars.flatten ++ part) := by
      simp
    rw [buffer]
    simp only [length_append]
    rw [if_pos (by omega)]
    by_cases done : chars.flatten ++ part = []
    · obtain ⟨noChars, noPart⟩ := append_eq_nil_iff.mp done
      have none_ : chars = [] := by
        cases chars with
        | nil => rfl
        | cons char chars =>
          exact absurd (append_eq_nil_iff.mp noChars).1
            (later char mem_cons_self).ne_nil
      subst none_ noPart
      simp
    · have positive := length_pos_iff.mpr done
      rw [length_append] at positive
      rw [if_neg (by omega), ← length_append, ih later done]
      simp only [length_append, length_cons, flatten_cons, Nat.sub_sub,
        Nat.add_comm 1, Nat.add_assoc]

/-- What is read when the missing bytes of a character and one byte for each further one are asked
for: whole characters, and a part of the next one. -/
theorem exists_broken_next (text : ∀ char ∈ todo, IsChar char) (broken : BrokenAt todo part missing)
    {rest : List Nat} (split : part ++ rest = todo.flatten) {sz more : Nat}
    (asked : more = if part = [] then sz else missing.length + (sz - 1))
    (wanted : part ≠ [] → 0 < sz) :
    ∃ whole todo' part' missing', todo = whole ++ todo' ∧
      part ++ rest.take more = whole.flatten ++ part' ∧ BrokenAt todo' part' missing' ∧
      whole.length ≤ sz ∧ (part' ≠ [] → whole.length < sz) := by
  rcases broken with ⟨rfl, rfl⟩ | ⟨some_, -, later, rfl⟩
  · rw [if_pos rfl] at asked
    subst asked
    exact exists_broken text (by rw [append_assoc, take_append_drop]; exact split)
      (by rw [nil_append, length_take]; omega)
  · have positive := wanted some_
    rw [if_neg some_] at asked
    have isRest : rest = missing ++ later.flatten := by
      rw [flatten_cons, append_assoc] at split
      exact append_cancel_left split
    have laterText : ∀ char ∈ later, IsChar char :=
      fun char member => text char (mem_cons_of_mem _ member)
    have takes : rest.take more = missing ++ later.flatten.take (sz - 1) := by
      rw [isRest, asked, take_append, take_of_length_le (by omega),
        Nat.add_sub_cancel_left]
    obtain ⟨whole, todo', part', missing', rfl, same, broken', bound, less⟩ :=
      exists_broken laterText (take_append_drop (sz - 1) later.flatten)
        (by rw [length_take]; omega : _ ≤ sz - 1)
    refine ⟨(part ++ missing) :: whole, todo', part', missing', rfl, ?_, broken', ?_, fun more_ => ?_⟩
    · rw [takes, same, flatten_cons]
      simp only [append_assoc]
    · rw [length_cons]
      omega
    · have := less more_
      rw [length_cons]
      omega

/-- From within a text, the loop returns the characters that are still wanted. -/
theorem readTextLoop_spec (text : ∀ char ∈ todo, IsChar char) (broken : BrokenAt todo part missing)
    (s : Source) (split : part ++ s.rest = todo.flatten) {sz more : Nat}
    (asked : more = if part = [] then sz else missing.length + (sz - 1))
    (wanted : part ≠ [] → 0 < sz) :
    ∃ next, readTextLoop s (front ++ part) sz more front.length =
        (front ++ (todo.take sz).flatten, next) ∧ next.rest = (todo.drop sz).flatten := by
  induction size : s.rest.length using Nat.strong_induction_on
    generalizing s todo part missing front sz more with
  | _ size ih =>
    rw [readTextLoop]
    by_cases zero : more = 0
    · -- Nothing more is asked for, so no part of a character has been read.
      rw [if_pos zero]
      rcases broken with ⟨rfl, rfl⟩ | ⟨some_, someMissing, -⟩
      · rw [if_pos rfl, zero] at asked
        subst asked
        exact ⟨s, by simp, split⟩
      · have positive := length_pos_iff.mpr someMissing
        rw [if_neg some_] at asked
        omega
    · obtain ⟨next, reads, rest⟩ := streamRw_spec s more
      rw [if_neg zero, reads]
      dsimp only
      by_cases done : s.rest.take more = []
      · -- At the end, every character is whole.
        have empty := (take_eq_nil_iff.mp done).resolve_left zero
        rw [dif_pos done]
        rw [empty, append_nil] at split
        have none_ : part = [] ∧ todo = [] := by
          rcases broken with ⟨rfl, -⟩ | ⟨-, someMissing, later, rfl⟩
          · refine ⟨rfl, ?_⟩
            cases todo with
            | nil => rfl
            | cons char todo =>
              exact absurd (append_eq_nil_iff.mp split.symm).1
                (text char mem_cons_self).ne_nil
          · have positive := length_pos_iff.mpr someMissing
            have length := congrArg List.length split
            simp only [flatten_cons, length_append] at length
            omega
        obtain ⟨rfl, rfl⟩ := none_
        refine ⟨next, by simp, ?_⟩
        rw [rest, empty]
        simp
      · obtain ⟨whole, todo', part', missing', rfl, same, broken', bound, less⟩ :=
          exists_broken_next text broken split asked wanted
        have wholeText : ∀ char ∈ whole, IsChar char :=
          fun char member => text char (mem_append_left _ member)
        have todoText : ∀ char ∈ todo', IsChar char :=
          fun char member => text char (mem_append_right _ member)
        have some_ : whole.flatten ++ part' ≠ [] := by
          rw [← same]
          exact fun both => done (append_eq_nil_iff.mp both).2
        have split' : part' ++ next.rest = todo'.flatten := by
          have all : whole.flatten ++ (part' ++ next.rest) = whole.flatten ++ todo'.flatten := by
            rw [← append_assoc, ← same, append_assoc, rest, take_append_drop, split,
              flatten_append]
          exact append_cancel_left all
        have shorter := streamRw_shorter reads done
        rw [size] at shorter
        rw [dif_neg done, append_assoc, same, countWhole_spec wholeText todoText broken' some_]
        dsimp only
        obtain ⟨last, returns, rest'⟩ := ih _ shorter todoText broken' next split'
          rfl (fun more_ => Nat.sub_pos_of_lt (less more_)) rfl
        refine ⟨last, ?_, ?_⟩
        · rw [← append_assoc, returns, append_assoc, ← flatten_append,
            take_append, take_of_length_le bound]
        · rw [rest', drop_append, drop_of_length_le bound, nil_append]

end Text

/-! ## Sequences of calls -/

theorem readTextLoop_split (s : Source) (vstr : List Nat) (sz more last : Nat) :
    ∃ next piece, readTextLoop s vstr sz more last = (vstr ++ piece, next) ∧
      piece ++ next.rest = s.rest := by
  induction size : s.rest.length using Nat.strong_induction_on generalizing s vstr sz more last with
  | _ size ih =>
    rw [readTextLoop]
    by_cases zero : more = 0
    · exact ⟨s, [], by rw [if_pos zero, append_nil], rfl⟩
    · obtain ⟨next, reads, rest⟩ := streamRw_spec s more
      rw [if_neg zero, reads]
      dsimp only
      by_cases done : s.rest.take more = []
      · refine ⟨next, [], by rw [dif_pos done, append_nil], ?_⟩
        rw [nil_append, rest]
        have empty := (take_eq_nil_iff.mp done).resolve_left zero
        rw [empty, drop_nil]
      · have shorter := streamRw_shorter reads done
        rw [size] at shorter
        rw [dif_neg done]
        obtain ⟨last', piece, returns, whole⟩ := ih _ shorter next _ _ _ _ rfl
        refine ⟨last', s.rest.take more ++ piece, by rw [returns, append_assoc], ?_⟩
        rw [append_assoc, whole, rest, take_append_drop]

theorem streamCall_split (isText : Bool) (s : Source) (call : StreamCall) :
    (streamCall isText s call).1 ++ (streamCall isText s call).2.rest = s.rest := by
  have exactly : ∀ size, (streamRw s size).1 ++ (streamRw s size).2.rest = s.rest := by
    intro size
    obtain ⟨next, reads, rest⟩ := streamRw_spec s size
    rw [reads, rest, take_append_drop]
  cases call with
  | read n =>
    cases isText with
    | false => exact exactly n
    | true =>
      obtain ⟨next, piece, returns, whole⟩ := readTextLoop_split s [] n n 0
      simp only [streamCall, streamReadGeneric, if_true, returns]
      exact whole
  | readall =>
    obtain ⟨next, returns, rest⟩ := readallLoop_spec s [] (by decide : 0 < defaultBufferSize)
    simp only [streamCall, streamReadall, returns, rest, nil_append, append_nil]
  | readline maxSize =>
    obtain ⟨next, piece, returns, -, whole⟩ := readlineLoop_spec s [] maxSize
    simp only [streamCall, streamReadline, returns]
    exact whole
  | readinto len => exact exactly len

/-- A call returns what it should, if a text read starts where a character does. -/
theorem streamCall_returns {isText : Bool} {s : Source} {call : StreamCall}
    (boundary : AtBoundary isText s call) :
    Returns isText s.rest (streamCall isText s call).1 call := by
  have exactly : ∀ size, (streamRw s size).1 = s.rest.take size := by
    intro size
    obtain ⟨next, reads, -⟩ := streamRw_spec s size
    rw [reads]
  cases call with
  | read n =>
    cases isText with
    | false => exact exactly n
    | true =>
      simp only [Returns, streamCall, streamReadGeneric, if_true]
      rcases boundary rfl with rfl | checked
      · rw [readTextLoop, if_pos rfl]
        exact ⟨Nat.le_refl _, fun chars _ _ => by rw [take_zero, flatten_nil]⟩
      · have reads : ∀ chars : List (List Nat), (∀ char ∈ chars, IsChar char) →
            chars.flatten = s.rest → (readTextLoop s [] n n 0).1 = (chars.take n).flatten := by
          intro chars text same
          obtain ⟨next, returns, -⟩ := @readTextLoop_spec [] [] [] chars text
            (Or.inl ⟨rfl, rfl⟩) s same.symm n n rfl (fun some_ => absurd rfl some_)
          rw [append_nil, length_nil, nil_append] at returns
          rw [returns]
        obtain ⟨chars, text, same⟩ := text_of_utf8Check checked
        refine ⟨?_, reads⟩
        rw [reads chars text same,
          countP_flatten fun char member => text char (mem_of_mem_take member),
          length_take]
        exact Nat.min_le_left _ _
  | readall =>
    obtain ⟨next, returns, -⟩ := readallLoop_spec s [] (by decide : 0 < defaultBufferSize)
    simp only [Returns, streamCall, streamReadall, returns, nil_append]
  | readline maxSize =>
    obtain ⟨next, piece, returns, isPiece, -⟩ := readlineLoop_spec s [] maxSize
    simp only [Returns, streamCall, streamReadline, returns, nil_append, isPiece]
  | readinto len => exact exactly len

/-- What is returned and what is left are the content, along every sequence of calls; and each call
returns what it should if every text read starts where a character does. -/
theorem stream_partitions (isText : Bool) (s : Source) (calls : List StreamCall) :
    (streamCalls isText s calls).1.flatten ++ (streamCalls isText s calls).2.rest = s.rest ∧
      ((∀ made ∈ attempted (fun s call => some (streamCall isText s call)) s calls,
          AtBoundary isText made.1 made.2) →
        AllAnswered (fun s call => some (streamCall isText s call))
          (fun s call piece _ => Returns isText s.rest piece call) s calls) := by
  constructor
  · induction calls generalizing s with
    | nil => rfl
    | cons call calls ih =>
      have here := streamCall_split isText s call
      have later := ih (streamCall isText s call).2
      simp only [streamCalls, flatten_cons, append_assoc, later, here]
  · intro fit
    refine AllAnswered.of_condition (fun _ => True) (AtBoundary isText) ?_ trivial calls fit
    intro s call _ boundary
    exact ⟨_, _, rfl, streamCall_returns boundary, trivial⟩

/-- Characters of two and three bytes that are read byte by byte, and then the rest of the line. -/
theorem stream_partitions_shortReads :
    AllAnswered (fun s call => some (streamCall true s call))
      (fun s call piece _ => Returns true s.rest piece call)
      { rest := [0xC3, 0xA9, 0xE2, 0x82, 0xAC, 0x0A, 0x61], answers := [1, 1, 1] }
      [.read 2, .readline none, .readinto 3] :=
  (stream_partitions true _ _).2 (by
    intro made member
    simp only [attempted, mem_cons, not_mem_nil, or_false] at member
    rcases member with rfl | rfl | rfl
    · exact fun _ => Or.inr (by decide)
    · trivial
    · trivial)

/-- A read of one character that starts within another one takes five bytes. -/
theorem stream_partitions_overreads :
    ¬AllAnswered (fun s call => some (streamCall true s call))
      (fun s call piece _ => Returns true s.rest piece call)
      { rest := [0xC3, 0xA9, 0x61, 0x62, 0x63, 0x64], answers := [] }
      [.readline (some 1), .read 1] := by
  have line : streamCall true { rest := [0xC3, 0xA9, 0x61, 0x62, 0x63, 0x64], answers := [] }
      (.readline (some 1)) =
        ([0xC3], { rest := [0xA9, 0x61, 0x62, 0x63, 0x64], answers := [] }) := by
    simp [streamCall, streamReadline, readlineLoop, Source.read]
  have char : (streamCall true { rest := [0xA9, 0x61, 0x62, 0x63, 0x64], answers := [] }
      (.read 1)).1 = [0xA9, 0x61, 0x62, 0x63, 0x64] := by
    simp [streamCall, streamReadGeneric, readTextLoop, streamRw, Source.read, countWhole,
      streamCharLen]
  intro answered
  cases answered with
  | cons comes here later =>
    rw [Option.some.injEq, line] at comes
    cases comes
    cases later with
    | cons comes here later =>
      have piece := char.symm.trans (congrArg Prod.fst (Option.some.inj comes))
      subst piece
      exact absurd here.1 (by decide)

end MultiPython.Io
