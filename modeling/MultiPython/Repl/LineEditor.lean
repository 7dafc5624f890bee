import MultiPython.Repl.Readline

/-!
# What the line editor shows

`Editor` is a plain editor with the text in front of the cursor and the text behind it. As long as the
cursor is moved back by less than 1000 columns at once, `readline_process_char` keeps the line of such
an editor, and a terminal that receives what it sends shows the prompt and the text.
-/

namespace MultiPython.Repl

open Logic Str TerminalLine List Option

/-- A plain editor, with the history, of which it may show an entry, and the state of the keyboard. -/
structure Editor where
  before : List Nat
  after : List Nat
  history : List (List Nat)
  shown : Nat
  escapeSeq : EscapeSeq
  escapeSeqBuf : Nat
  ended : Bool
deriving DecidableEq, Repr

/-- The text of an editor. -/
def Editor.text (e : Editor) : List Nat := e.before ++ e.after

/-- The number of characters that a backspace removes: an indent, if there are only spaces. -/
def Editor.backspaceCount (config : ReplConfig) (e : Editor) : Nat :=
  if config.autoIndent ∧ 4 ≤ e.before.length ∧ e.before.all (· = 32) then 4 else 1

/-- The history behind a new line, of some size. -/
def pushEntry (size : Nat) (history : List (List Nat)) (text : List Nat) (memory : Bool) :
    List (List Nat) :=
  if text ≠ [] ∧ history.head? ≠ some text ∧ memory then (text :: history).take size else history

/-- What a key does to a plain editor. -/
def Editor.press (config : ReplConfig) (size : Nat) (e : Editor) (compl : Completion) (memory : Bool) :
    Key → Editor
  | .finish _ => { e with ended := true }
  | .home => { e with before := [], after := e.before ++ e.after }
  | .leftArrow => { e with before := e.before.dropLast, after := e.before.getLast?.toList ++ e.after }
  | .delete => { e with after := e.after.drop 1 }
  | .end_ => { e with before := e.before ++ e.after, after := [] }
  | .rightArrow => { e with before := e.before ++ e.after.take 1, after := e.after.drop 1 }
  | .killTail => { e with after := [] }
  | .downArrow =>
    match e.shown with
    | 0 => e
    | 1 => { e with before := [], after := [], shown := 0 }
    | shown + 2 =>
      { e with before := (e.history[shown]?).getD [], after := [], shown := shown + 1 }
  | .upArrow =>
    match e.history[e.shown]? with
    | none => e
    | some entry => { e with before := entry, after := [], shown := e.shown + 1 }
  | .killHead => { e with before := [] }
  | .newline => { e with history := pushEntry size e.history e.text memory, ended := true }
  | .backspace => { e with before := e.before.take (e.before.length - e.backspaceCount config) }
  | .tab =>
    match compl with
    | .manyMatches _ => e
    | .completes complStr => { e with before := e.before ++ complStr }
  | .printable c => { e with before := e.before ++ [c] }
  | .nothing => e

/-- The key that is typed in an editor. -/
def Editor.key (config : ReplConfig) (e : Editor) (c : Nat) : Key × EscapeSeq × Nat :=
  keyOf config e.escapeSeq e.escapeSeqBuf (e.text = []) c

/-- What is typed in a plain editor. -/
def Editor.type (config : ReplConfig) (size : Nat) (e : Editor) (typed : Typed) : Editor :=
  if e.ended then e
  else
    let (key, escapeSeq, escapeSeqBuf) := e.key config typed.c
    Editor.press config size { e with escapeSeq := escapeSeq, escapeSeqBuf := escapeSeqBuf }
      typed.compl typed.memory key

/-- The line that is edited, with the terminal and whether the function has returned. -/
structure Session where
  rl : Readline
  terminal : TerminalLine
  ended : Bool
deriving DecidableEq, Repr

/-- The loop of `readline`: a character is processed unless the line has ended. -/
def Session.type (config : ReplConfig) (s : Session) (typed : Typed) : Option Session :=
  if s.ended then some s
  else (readlineProcessChar config s.rl typed).map fun (r, rl, sent) =>
    { rl := rl, terminal := s.terminal.feed sent, ended := r.isSome }

/-- What is typed in the line editor and in a plain editor. -/
def typeBoth (config : ReplConfig) (size : Nat) (both : Session × Editor) (typed : Typed) :
    Option (Unit × Session × Editor) :=
  (both.1.type config typed).map fun s => ((), s, both.2.type config size typed)

/-- The line editor has the text and the cursor of a plain editor behind a fixed part of its line, and
the terminal shows them behind the prompt, or a new line once the line has ended. -/
structure LineMeets (head prompt : List Nat) (s : Session) (e : Editor) : Prop where
  ended : s.ended = e.ended
  bounds : s.rl.origLineLen ≤ s.rl.cursorPos ∧ s.rl.cursorPos ≤ s.rl.line.length
  fixed : s.rl.origLineLen = head.length ∧ s.rl.line.take head.length = head
  text : s.rl.line.drop s.rl.origLineLen = e.text
  cursor : s.rl.cursorPos - s.rl.origLineLen = e.before.length
  terminal : s.terminal = showing (prompt ++ s.rl.line.drop s.rl.origLineLen)
      (prompt.length + (s.rl.cursorPos - s.rl.origLineLen)) ∨
    s.ended = true ∧ s.terminal = showing [] 0

/-- A completion is printable, and a list of matches ends with a new line. -/
def Completion.Plain : Completion → Prop
  | .completes complStr => Printable complStr
  | .manyMatches printed => ∃ body, printed = body ++ [13, 10] ∧
      ∀ byte ∈ body, (32 ≤ byte ∧ byte ≤ 126) ∨ byte = 13 ∨ byte = 10

/-- A key moves the cursor back by less than 1000 columns at once: over what is in front of it where
that goes or the cursor goes to the beginning, and over what is behind it where that is drawn. -/
def Editor.Near (e : Editor) (compl : Completion) : Key → Prop
  | .home => e.before.length < 1000
  | .delete => e.after.length ≤ 1000
  | .downArrow => e.shown = 0 ∨ e.before.length < 1000
  | .upArrow => e.history.length ≤ e.shown ∨ e.before.length < 1000
  | .killHead => e.before.length < 1000 ∧ e.after.length < 1000
  | .backspace => e.before = [] ∨ e.after.length < 1000
  | .tab => compl = .completes [] ∨ e.after.length < 1000
  | .printable _ => e.after.length < 1000
  | _ => True

instance (e : Editor) (compl : Completion) : (key : Key) → Decidable (e.Near compl key)
  | .home => inferInstanceAs (Decidable (_ < _))
  | .delete => inferInstanceAs (Decidable (_ ≤ _))
  | .downArrow => inferInstanceAs (Decidable (_ ∨ _))
  | .upArrow => inferInstanceAs (Decidable (_ ∨ _))
  | .killHead => inferInstanceAs (Decidable (_ ∧ _))
  | .backspace => inferInstanceAs (Decidable (_ ∨ _))
  | .tab => inferInstanceAs (Decidable (_ ∨ _))
  | .printable _ => inferInstanceAs (Decidable (_ < _))
  | .finish _ | .leftArrow | .end_ | .rightArrow | .killTail | .newline | .nothing =>
    inferInstanceAs (Decidable True)

/-- The line editor and a plain editor have the same text, cursor and history, and a terminal shows the
prompt with the cursor behind it. -/
structure Edits (size : Nat) (head prompt : List Nat) (rl : Readline) (e : Editor) : Prop where
  line : rl.line = head ++ e.text
  orig : rl.origLineLen = head.length
  cursor : rl.cursorPos = head.length + e.before.length
  prompt : (showing [] 0).feed rl.prompt = showing prompt prompt.length
  escapeSeq : rl.escapeSeq = e.escapeSeq
  digit : rl.escapeSeqBuf = e.escapeSeqBuf
  histCur : rl.histCur = (e.shown : Int) - 1
  shown : e.shown ≤ e.history.length
  hist : rl.hist = e.history.map some ++ List.replicate (size - e.history.length) none
  fits : e.history.length ≤ size
  printable : Printable e.text
  entries : ∀ entry ∈ e.history, Printable entry

/-! ## Drawing -/

theorem moveCursorBack_spec {pos : Nat} (near : pos < 1000) :
    ∃ bytes, moveCursorBack pos = some bytes ∧ ∀ cells column,
      (showing cells column).feed bytes = showing cells (column - pos) := by
  by_cases few : pos ≤ 4
  · exact ⟨List.replicate pos 8, if_pos few, fun cells column => feed_backspaces pos⟩
  · have digits : (decimal pos).length ≤ 3 := by
      rw [decimal, length_reverse, length_map]
      exact (Nat.digits_length_le_iff (by decide) pos).mpr near
    have short : (27 :: 91 :: decimal pos).length ≤ 5 := by
      rw [length_cons, length_cons]
      omega
    have kept : (27 :: 91 :: decimal pos).take 5 = 27 :: 91 :: decimal pos :=
      take_of_length_le short
    refine ⟨27 :: 91 :: (decimal pos ++ [68]), ?_, fun cells column => feed_back (by omega)⟩
    rw [moveCursorBack, if_neg few]
    simp only [kept]
    have stored := @storeAt_append _ (27 :: 91 :: decimal pos) [0]
      (List.replicate (6 - ((27 :: 91 :: decimal pos) ++ [0]).length) 0) [68] rfl
    rw [stored, map_some]
    congr 1
    exact take_left' (by simp)

/-- What a redraw is for: a terminal shows a text, and is to show another one that agrees with it up to
where the cursor is moved back to. -/
structure Draws (shown : List Nat) (at_ lastLen : Nat) (text : List Nat) (r : Redraw) : Prop where
  back : r.stepBack ≤ at_
  inside : at_ ≤ shown.length
  agree : text.take (at_ - r.stepBack) = shown.take (at_ - r.stepBack)
  forward : at_ - r.stepBack + r.stepForward ≤ text.length
  still : r.fromCursor = false → text = shown
  covered : shown.length ≤ text.length ∨ text.length < lastLen

/-- A redraw does what it is for, if the cursor is not moved back too far. -/
theorem redrawLine_spec {head prompt shown text : List Nat} {at_ lastLen : Nat} {r : Redraw}
    (draws : Draws shown at_ lastLen text r) {rl : Readline} (line : rl.line = head ++ text)
    (cursor : rl.cursorPos = head.length + at_) (printable : Printable text)
    (near : r.stepBack < 1000)
    (nearEnd : r.fromCursor = true → text.length - (at_ - r.stepBack + r.stepForward) < 1000) :
    ∃ sent, redrawLine (head.length + lastLen) rl r =
        some ({ rl with cursorPos := head.length + (at_ - r.stepBack + r.stepForward) }, sent) ∧
      (showing (prompt ++ shown) (prompt.length + at_)).feed sent =
        showing (prompt ++ text) (prompt.length + (at_ - r.stepBack + r.stepForward)) := by
  have back := draws.back
  have inside := draws.inside
  obtain ⟨backBytes, backs, movesBack⟩ := moveCursorBack_spec near
  -- The part that stays, and what is behind it on the terminal and in the text.
  obtain ⟨front, tail, shownTail, rfl, rfl, frontLength⟩ : ∃ front tail shownTail,
      text = front ++ tail ∧ shown = front ++ shownTail ∧ front.length = at_ - r.stepBack :=
    ⟨shown.take (at_ - r.stepBack), text.drop (at_ - r.stepBack), shown.drop (at_ - r.stepBack),
      by rw [← draws.agree, take_append_drop], (take_append_drop _ _).symm, by
        rw [length_take]
        omega⟩
  have forward := draws.forward
  have covered := draws.covered
  rw [← frontLength] at forward nearEnd ⊢
  simp only [length_append] at forward nearEnd covered
  have cursorIs : rl.cursorPos - r.stepBack = (head ++ front).length := by
    rw [cursor, length_append]
    omega
  have column : prompt.length + at_ - r.stepBack = (prompt ++ front).length := by
    rw [length_append]
    omega
  have lineIs : rl.line = head ++ front ++ tail := by rw [line, append_assoc]
  have rest : rl.line.drop (rl.cursorPos - r.stepBack) = tail := by
    rw [cursorIs, lineIs, drop_left]
  have moved : (if r.stepBack > 0 then moveCursorBack r.stepBack else some []) =
      some (if r.stepBack > 0 then backBytes else []) := by
    split_ifs
    · exact backs
    · rfl
  have movedBack : (showing (prompt ++ (front ++ shownTail)) (prompt.length + at_)).feed
      (if r.stepBack > 0 then backBytes else []) =
      showing ((prompt ++ front) ++ shownTail) (prompt ++ front).length := by
    rw [← append_assoc, ← column]
    split_ifs with some_
    · exact movesBack _ _
    · have none_ : r.stepBack = 0 := by omega
      rw [none_]
      rfl
  have tailPrintable : Printable tail :=
    fun char member => printable char (mem_append_right _ member)
  have newCursor : rl.cursorPos - r.stepBack + r.stepForward =
      head.length + (front.length + r.stepForward) := by
    rw [cursorIs, length_append, Nat.add_assoc]
  cases fromCursor : r.fromCursor with
  | true =>
    obtain ⟨lastBytes, lasts, movesLast⟩ := moveCursorBack_spec (nearEnd fromCursor)
    have lastStep : rl.line.length - (head.length + (front.length + r.stepForward)) =
        front.length + tail.length - (front.length + r.stepForward) := by
      rw [lineIs, length_append, length_append]
      omega
    have erased : (showing ((prompt ++ front) ++ shownTail) (prompt ++ front).length).feed
        (if rl.line.length < head.length + lastLen then [27, 91, 75] else []) =
        showing ((prompt ++ front) ++
          if rl.line.length < head.length + lastLen then [] else shownTail)
          (prompt ++ front).length := by
      split_ifs
      · rw [feed_erase, take_left, append_nil]
      · rfl
    have nothingLeft :
        (if rl.line.length < head.length + lastLen then [] else shownTail).drop tail.length =
          [] := by
      split_ifs with shorter
      · exact drop_nil
      · rw [lineIs] at shorter
        simp only [length_append] at shorter
        exact drop_of_length_le (by omega)
    refine ⟨(if r.stepBack > 0 then backBytes else []) ++
      (if rl.line.length < head.length + lastLen then [27, 91, 75] else []) ++ tail ++ lastBytes,
      ?_, ?_⟩
    · simp only [redrawLine, moved, fromCursor, if_true, bind_eq_bind, bind_some,
        lastStep, lasts, rest, newCursor]
    · rw [feed_append, feed_append, feed_append, movedBack, erased,
        feed_print tailPrintable rfl, nothingLeft, append_nil, movesLast,
        append_assoc prompt]
      congr 1
      rw [length_append]
      omega
  | false =>
    have same : tail = shownTail := append_cancel_left (draws.still fromCursor)
    subst same
    have drawn : (tail.take r.stepForward).length = r.stepForward := by
      rw [length_take]
      omega
    refine ⟨(if r.stepBack > 0 then backBytes else []) ++ tail.take r.stepForward, ?_, ?_⟩
    · simp only [redrawLine, moved, fromCursor, bind_eq_bind, bind_some, rest,
        newCursor, Bool.false_eq_true, if_false]
    · rw [feed_append, movedBack, feed_print (tailPrintable.take _) rfl, drawn,
        append_assoc (prompt ++ front), take_append_drop, append_assoc prompt,
        length_append, Nat.add_assoc]

/-! ## The keys -/

section Keys

variable {config : ReplConfig} {size : Nat} {head prompt : List Nat} {rl : Readline} {e : Editor}
  {line entry : List Nat}

namespace Edits

section

variable (edits : Edits size head prompt rl e)

include edits

theorem line_take :
    rl.line.take rl.cursorPos = head ++ e.before := by
  rw [edits.line, edits.cursor, Editor.text, ← append_assoc]
  exact take_left' length_append

theorem line_drop : rl.line.drop rl.cursorPos = e.after := by
  rw [edits.line, edits.cursor, Editor.text, ← append_assoc]
  exact drop_left' length_append

theorem line_take_orig :
    rl.line.take rl.origLineLen = head := by
  rw [edits.line, edits.orig, take_left]

theorem line_drop_orig :
    rl.line.drop rl.origLineLen = e.text := by
  rw [edits.line, edits.orig, drop_left]

theorem line_length :
    rl.line.length = head.length + e.before.length + e.after.length := by
  rw [edits.line, Editor.text, length_append, length_append, Nat.add_assoc]

theorem typed :
    (rl.line.drop rl.origLineLen).take (rl.cursorPos - rl.origLineLen) = e.before := by
  rw [edits.line_drop_orig, edits.cursor, edits.orig, Nat.add_sub_cancel_left, Editor.text,
    take_left]

theorem inFront :
    rl.cursorPos - rl.origLineLen = e.before.length := by
  rw [edits.cursor, edits.orig, Nat.add_sub_cancel_left]

theorem behind :
    rl.line.length - rl.cursorPos = e.after.length := by
  rw [edits.line_length, edits.cursor, Nat.add_sub_cancel_left]

theorem edited {line before after : List Nat} (lineIs : line = head ++ (before ++ after))
    (printable : Printable (before ++ after)) :
    Edits size head prompt { rl with line := line, cursorPos := head.length + before.length }
      { e with before := before, after := after } :=
  { edits with line := lineIs, cursor := rfl, printable := printable }

/-- A line of the history is recalled, or the text is deleted. -/
theorem recalled {shown : Nat} {histCur : Int} (lineIs : line = head ++ entry)
    (printable : Printable entry) (isShown : histCur = (shown : Int) - 1)
    (inside : shown ≤ e.history.length) :
    Edits size head prompt
      { rl with histCur := histCur, line := line, cursorPos := head.length + entry.length }
      { e with before := entry, after := [], shown := shown } :=
  { edits with
    line := by rw [lineIs, Editor.text, append_nil]
    cursor := rfl
    histCur := isShown
    shown := inside
    printable := by rwa [Editor.text, append_nil] }

theorem before_printable : Printable e.before :=
  fun char member => edits.printable char (mem_append_left _ member)

theorem after_printable : Printable e.after :=
  fun char member => edits.printable char (mem_append_right _ member)

end

end Edits

/-- What the branches of `readline_process_char` prepare: the line has ended, or the line and the
redraw are those that the next text needs. -/
inductive Prepared (size : Nat) (head prompt : List Nat) (e next : Editor) : Handled → Prop where
  | returns {r rl sent} (edits : Edits size head prompt rl next)
      (same : next.before = e.before ∧ next.after = e.after) (ended : next.ended = true)
      (sentIs : sent = [] ∨ sent = [13, 10]) : Prepared size head prompt e next (.returns r rl sent)
  | redraws {rl sent redraw shown}
      (edits : Edits size head prompt { rl with cursorPos := head.length + next.before.length } next)
      (cursor : rl.cursorPos = head.length + e.before.length) (running : next.ended = e.ended)
      (shows : (showing (prompt ++ e.text) (prompt.length + e.before.length)).feed sent =
        showing (prompt ++ shown) (prompt.length + e.before.length))
      (draws : Draws shown e.before.length e.text.length next.text redraw)
      (lands : e.before.length - redraw.stepBack + redraw.stepForward = next.before.length)
      (near : redraw.stepBack < 1000)
      (nearEnd : redraw.fromCursor = true → next.after.length < 1000) :
      Prepared size head prompt e next (.redraws rl sent redraw)

theorem Prepared.moves (edits : Edits size head prompt rl e) {before after : List Nat}
    {back forward : Nat} (same : before ++ after = e.before ++ e.after)
    (inside : back ≤ e.before.length) (lands : e.before.length - back + forward = before.length)
    (near : back < 1000) :
    Prepared size head prompt e { e with before := before, after := after }
      (.redraws rl [] ⟨back, false, forward⟩) := by
  have lineIs : rl.line = head ++ (before ++ after) := by rw [same, edits.line, Editor.text]
  refine .redraws (edits.edited lineIs (same ▸ edits.printable)) edits.cursor rfl rfl ?_ lands near
    (by simp)
  refine ⟨inside, by simp [Editor.text], ?_, ?_, fun _ => same, .inl (le_of_eq ?_)⟩
  · rw [Editor.text, Editor.text, same]
  · show e.before.length - back + forward ≤ (before ++ after).length
    rw [lands, length_append]
    omega
  · show (e.before ++ e.after).length = (before ++ after).length
    rw [same]

theorem Prepared.stays (edits : Edits size head prompt rl e) :
    Prepared size head prompt e e (.redraws rl [] .nothing) :=
  Prepared.moves edits rfl (Nat.zero_le _) rfl (by decide)

theorem Prepared.replaces {next : Editor} {back : Nat} {inserted : List Nat}
    (edits : Edits size head prompt { rl with cursorPos := head.length + next.before.length } next)
    (cursor : rl.cursorPos = head.length + e.before.length) (running : next.ended = e.ended)
    (inside : back ≤ e.before.length)
    (beforeIs : next.before = e.before.take (e.before.length - back) ++ inserted)
    (near : back < 1000) (nearEnd : next.after.length < 1000) :
    Prepared size head prompt e next (.redraws rl [] ⟨back, true, inserted.length⟩) := by
  have kept : (e.before.take (e.before.length - back)).length = e.before.length - back := by
    rw [length_take]
    omega
  have lands : e.before.length - back + inserted.length = next.before.length := by
    rw [beforeIs, length_append, kept]
  refine .redraws edits cursor running rfl ?_ lands near fun _ => nearEnd
  refine ⟨inside, by simp [Editor.text], ?_, ?_, by simp, le_or_gt _ _⟩
  · rw [Editor.text, Editor.text, beforeIs, append_assoc, take_left' kept,
      take_append_of_le_length (Nat.sub_le _ _)]
  · show e.before.length - back + inserted.length ≤ next.text.length
    rw [lands, Editor.text, length_append]
    omega

theorem backspaceCount_eq (edits : Edits size head prompt rl e) (some_ : e.before ≠ []) :
    backspaceCount config rl = e.backspaceCount config ∧
      e.backspaceCount config ≤ e.before.length := by
  have positive := length_pos_of_ne_nil some_
  constructor
  · rw [backspaceCount, edits.typed, Editor.backspaceCount]
    cases config.autoIndent <;> by_cases spaces : e.before.all (· = 32) <;>
      by_cases few : e.before.length < 4 <;> simp [spaces, few]
  · rw [Editor.backspaceCount]
    split_ifs with indent
    · exact indent.2.1
    · exact positive

theorem Edits.hist_get (edits : Edits size head prompt rl e) (index : Nat) :
    (rl.hist[index]?).join = e.history[index]? := by
  rw [edits.hist]
  by_cases inside : index < e.history.length
  · rw [List.getElem?_append_left (by rwa [length_map]), List.getElem?_map,
      List.getElem?_eq_getElem inside]
    rfl
  · rw [List.getElem?_append_right (by rw [length_map]; omega),
      List.getElem?_eq_none (Nat.le_of_not_lt inside), List.getElem?_replicate]
    split_ifs <;> rfl

theorem hist_push {history : List (List Nat)} {text : List Nat} (positive : 0 < size)
    (fits : history.length ≤ size) :
    some text :: (history.map some ++ List.replicate (size - history.length) none).dropLast =
      ((text :: history).take size).map some ++
        List.replicate (size - ((text :: history).take size).length) none := by
  obtain ⟨less, rfl⟩ : ∃ less, size = less + 1 := ⟨size - 1, by omega⟩
  rw [take_succ_cons, map_cons, cons_append, dropLast_eq_take]
  congr 1
  simp only [length_append, length_map, length_replicate, length_cons,
    length_take, take_append, map_take, take_replicate]
  congr 2 <;> omega

section

variable (edits : Edits size head prompt rl e)

include edits

theorem Edits.pushed (positive : 0 < size) (memory : Bool) :
    Edits size head prompt
      { rl with hist := readlinePushHistory rl.hist (rl.line.drop rl.origLineLen) memory }
      { e with history := pushEntry size e.history e.text memory, ended := true } := by
  have sameHead : rl.hist.head? = some (some e.text) ↔ e.history.head? = some e.text := by
    have first := edits.hist_get 0
    rw [List.head?_eq_getElem?, List.head?_eq_getElem?, ← first, join_eq_some_iff]
  rw [edits.line_drop_orig, readlinePushHistory, pushEntry]
  by_cases pushes : e.text ≠ [] ∧ e.history.head? ≠ some e.text ∧ memory
  · rw [if_pos ⟨pushes.1, fun same => pushes.2.1 (sameHead.mp same), pushes.2.2⟩, if_pos pushes]
    have fits := edits.fits
    refine { edits with shown := ?_, hist := ?_, fits := ?_, entries := ?_ }
    · have inside := edits.shown
      show e.shown ≤ ((e.text :: e.history).take size).length
      rw [length_take, length_cons]
      omega
    · show some e.text :: rl.hist.dropLast = _
      rw [edits.hist, hist_push positive fits]
    · show ((e.text :: e.history).take size).length ≤ size
      rw [length_take]
      exact Nat.min_le_left _ _
    · intro entry member
      rcases mem_cons.mp (mem_of_mem_take member) with rfl | old
      · exact edits.printable
      · exact edits.entries entry old
  · rw [if_neg fun all => pushes ⟨all.1, fun same => all.2.1 (sameHead.mpr same), all.2.2⟩,
      if_neg pushes]
    exact { edits with }

theorem Edits.line_cut :
    VstrCall.onBytes rl.line (.cutTailBytes (rl.line.length - rl.origLineLen)) = head := by
  have inside : rl.origLineLen ≤ rl.line.length := by
    rw [edits.orig, edits.line_length]
    omega
  rw [VstrCall.onBytes, Nat.sub_sub_self inside, edits.line_take_orig]

variable {memory : Bool}

theorem delete_prepared {compl : Completion} (near : e.Near compl .delete) :
    ∃ handled, pressKey config rl compl memory .delete = some handled ∧
      Prepared size head prompt e (e.press config size compl memory .delete) handled := by
  have behind := edits.behind
  cases isAfter : e.after with
  | nil =>
    rw [isAfter, length_nil] at behind
    refine ⟨.redraws rl [] .nothing, ?_, ?_⟩
    · rw [pressKey, if_neg (by omega)]
    · have same : e.press config size compl memory .delete = e := by
        rw [Editor.press, isAfter, drop_nil, ← isAfter]
      rw [same]
      exact .stays edits
  | cons char after =>
    rw [isAfter, length_cons] at behind
    have lineIs : VstrCall.onBytes rl.line (.cutOutBytes rl.cursorPos 1) =
        head ++ (e.before ++ e.after.drop 1) := by
      rw [VstrCall.onBytes, edits.line_take, ← drop_drop, edits.line_drop,
        append_assoc]
    refine ⟨_, by rw [pressKey, if_pos (by omega)], ?_⟩
    refine @Prepared.replaces _ _ _ _ _ _ 0 [] (edits.edited lineIs
      (edits.before_printable.append (edits.after_printable.drop 1))) edits.cursor rfl
      (Nat.zero_le _) ?_ (by decide) ?_
    · rw [append_nil, Nat.sub_zero, take_length]
      rfl
    · show (e.after.drop 1).length < 1000
      have short : e.after.length ≤ 1000 := near
      rw [length_drop]
      omega

theorem backspace_prepared {compl : Completion} (near : e.Near compl .backspace) :
    ∃ handled, pressKey config rl compl memory .backspace = some handled ∧
      Prepared size head prompt e (e.press config size compl memory .backspace) handled := by
  have inFront := edits.inFront
  by_cases isBefore : e.before = []
  · rw [isBefore, length_nil] at inFront
    refine ⟨.redraws rl [] .nothing, ?_, ?_⟩
    · rw [pressKey, if_neg (by omega)]
    · have same : e.press config size compl memory .backspace = e := by
        rw [Editor.press, isBefore, take_nil, ← isBefore]
      rw [same]
      exact .stays edits
  · obtain ⟨counts, inside⟩ := @backspaceCount_eq config _ _ _ _ _ edits isBefore
    have positive := length_pos_of_ne_nil isBefore
    have bounded : e.backspaceCount config ≤ 4 := by
      rw [Editor.backspaceCount]
      split_ifs <;> omega
    have short : e.after.length < 1000 := near.resolve_left isBefore
    have lineIs : VstrCall.onBytes rl.line
        (.cutOutBytes (rl.cursorPos - e.backspaceCount config) (e.backspaceCount config)) =
        head ++ (e.before.take (e.before.length - e.backspaceCount config) ++ e.after) := by
      have cursor := edits.cursor
      rw [VstrCall.onBytes, Nat.sub_add_cancel (by omega), edits.line_drop, edits.line]
      have place : rl.cursorPos - e.backspaceCount config =
          head.length + (e.before.length - e.backspaceCount config) := by omega
      rw [place, take_length_add_append, Editor.text,
        take_append_of_le_length (Nat.sub_le _ _), append_assoc]
    refine ⟨_, by rw [pressKey, if_pos (by omega)], ?_⟩
    simp only [counts]
    refine @Prepared.replaces _ _ _ _ _ _ (e.backspaceCount config) [] (edits.edited lineIs
      ((edits.before_printable.take _).append edits.after_printable)) edits.cursor rfl inside ?_
      (by omega) short
    rw [append_nil]
    rfl

/-- A line of the history is recalled, or the text is deleted. -/
theorem Prepared.recalls {shown : Nat} {histCur : Int} (lineIs : line = head ++ entry)
    (printable : Printable entry) (isShown : histCur = (shown : Int) - 1)
    (inside : shown ≤ e.history.length) (near : e.before.length < 1000) :
    Prepared size head prompt e { e with before := entry, after := [], shown := shown }
      (.redraws { rl with histCur := histCur, line := line } []
        ⟨rl.cursorPos - rl.origLineLen, true, line.length - rl.origLineLen⟩) := by
  have length : line.length - rl.origLineLen = entry.length := by
    rw [lineIs, edits.orig, length_append, Nat.add_sub_cancel_left]
  have noneBehind : ([] : List Nat).length < 1000 := by decide
  rw [length, edits.inFront]
  refine Prepared.replaces (edits.recalled lineIs printable isShown inside) edits.cursor rfl le_rfl
    ?_ near noneBehind
  rw [Nat.sub_self, take_zero, nil_append]

theorem upArrow_prepared {compl : Completion} (near : e.Near compl .upArrow) :
    ∃ handled, pressKey config rl compl memory .upArrow = some handled ∧
      Prepared size head prompt e (e.press config size compl memory .upArrow) handled := by
  have histCur := edits.histCur
  have index : (rl.histCur + 1).toNat = e.shown := by omega
  have entryIs := edits.hist_get e.shown
  refine ⟨upArrowKey rl, rfl, ?_⟩
  rw [upArrowKey, index, Editor.press]
  cases comes : e.history[e.shown]? with
  | none =>
    rw [comes, join_eq_none_iff] at entryIs
    rcases entryIs with none_ | none_ <;> rw [none_] <;> exact .stays edits
  | some entry =>
    rw [comes, join_eq_some_iff] at entryIs
    have inside : e.shown < e.history.length := (List.getElem?_eq_some_iff.mp comes).1
    have lineIs : VstrCall.onBytes (rl.line.take rl.origLineLen) (.addStrn entry none) =
        head ++ entry := by
      rw [VstrCall.onBytes, edits.line_take_orig]
    rw [entryIs]
    exact .recalls edits lineIs (edits.entries entry (mem_of_getElem? comes)) (by omega)
      inside (near.resolve_left (by omega))

end

theorem downArrowKey_recalls {cut line : List Nat} (going : rl.histCur ≥ 0)
    (cutIs : VstrCall.onBytes rl.line (.cutTailBytes (rl.line.length - rl.origLineLen)) = cut)
    (comes : (if rl.histCur - 1 ≥ 0 then
        (rl.hist[(rl.histCur - 1).toNat]?).join.map fun entry =>
          VstrCall.onBytes cut (.addStrn entry none)
      else some cut) = some line) :
    downArrowKey rl = some (.redraws { rl with histCur := rl.histCur - 1, line := line } []
      ⟨rl.cursorPos - rl.origLineLen, true, line.length - rl.origLineLen⟩) := by
  simp only [downArrowKey, if_pos going, cutIs, comes]
  rfl

section

variable (edits : Edits size head prompt rl e) {compl : Completion}

include edits compl

variable {memory : Bool}

theorem downArrow_prepared (near : e.Near compl .downArrow) :
    ∃ handled, pressKey config rl compl memory .downArrow = some handled ∧
      Prepared size head prompt e (e.press config size compl memory .downArrow) handled := by
  have histCur := edits.histCur
  have inside := edits.shown
  cases isShown : e.shown with
  | zero =>
    refine ⟨.redraws rl [] .nothing, ?_, ?_⟩
    · rw [pressKey, downArrowKey, if_neg (by omega)]
    · rw [Editor.press, isShown]
      exact .stays edits
  | succ shown =>
    have short : e.before.length < 1000 := near.resolve_left (by omega)
    have going : rl.histCur ≥ 0 := by omega
    rw [pressKey, Editor.press, isShown]
    cases shown with
    | zero =>
      refine ⟨_, downArrowKey_recalls going edits.line_cut (if_neg (by omega)), ?_⟩
      exact .recalls edits (append_nil head).symm (by simp [Printable]) (by omega)
        (Nat.zero_le _) short
    | succ shown =>
      have index : (rl.histCur - 1).toNat = shown := by omega
      have within : shown < e.history.length := by omega
      have comes := List.getElem?_eq_getElem within
      refine ⟨_, downArrowKey_recalls going edits.line_cut (by
        rw [if_pos (by omega), index, edits.hist_get, comes, map_some]), ?_⟩
      simp only [comes, getD_some]
      exact .recalls edits rfl (edits.entries _ (getElem_mem within)) (by omega) (by omega)
        short

theorem tab_prepared (plain : compl.Plain) (near : e.Near compl .tab) :
    ∃ handled, pressKey config rl compl memory .tab = some handled ∧
      Prepared size head prompt e (e.press config size compl memory .tab) handled := by
  refine ⟨tabKey rl compl, rfl, ?_⟩
  cases compl with
  | manyMatches printed =>
    obtain ⟨body, rfl, bodyPlain⟩ := plain
    have short : e.after.length < 1000 := near.resolve_left (by simp)
    have lineEnds : (showing (prompt ++ e.text) (prompt.length + e.before.length)).feed
        (body ++ [13, 10] ++ rl.prompt ++ e.before) =
        showing (prompt ++ e.before) (prompt.length + e.before.length) := by
      have drawn := @feed_print prompt.length prompt [] e.before edits.before_printable rfl
      rw [append_nil] at drawn
      rw [feed_append, feed_append, feed_newline bodyPlain, edits.prompt, drawn, drop_nil,
        append_nil]
    rw [tabKey, edits.typed]
    refine .redraws { edits with cursor := rfl } edits.cursor rfl lineEnds ?_ rfl (by simp)
      fun _ => short
    refine ⟨Nat.zero_le _, le_rfl, ?_, ?_, by simp, .inl ?_⟩
    · show (e.before ++ e.after).take (e.before.length - 0) = _
      rw [Nat.sub_zero, take_left, take_length]
    · show e.before.length - 0 + 0 ≤ (e.before ++ e.after).length
      rw [length_append]
      omega
    · show e.before.length ≤ (e.before ++ e.after).length
      rw [length_append]
      omega
  | completes complStr =>
    by_cases nothing : complStr = []
    · have same : e.press config size (.completes complStr) memory .tab = e := by
        rw [Editor.press, nothing, append_nil]
      rw [tabKey, if_pos nothing, same]
      exact .stays edits
    · have short : e.after.length < 1000 :=
        near.resolve_left fun same => nothing (Completion.completes.inj same)
      have lineIs : rl.line.take rl.cursorPos ++ complStr ++ rl.line.drop rl.cursorPos =
          head ++ (e.before ++ complStr ++ e.after) := by
        rw [edits.line_take, edits.line_drop, append_assoc, append_assoc,
          append_assoc]
      rw [tabKey, if_neg nothing]
      refine Prepared.replaces (edits.edited lineIs ((edits.before_printable.append plain).append
        edits.after_printable)) edits.cursor rfl (Nat.zero_le _) ?_ (by decide) short
      rw [Nat.sub_zero, take_length]
      rfl

theorem leftArrow_prepared :
    ∃ handled, pressKey config rl compl memory .leftArrow = some handled ∧
      Prepared size head prompt e (e.press config size compl memory .leftArrow) handled := by
  have inFront := edits.inFront
  refine ⟨_, rfl, ?_⟩
  rcases eq_nil_or_concat' e.before with isBefore | ⟨before, char, isBefore⟩
  · rw [isBefore, length_nil] at inFront
    rw [if_neg (by omega), Editor.press]
    refine .moves edits ?_ (Nat.zero_le _) ?_ (by decide) <;> rw [isBefore] <;> rfl
  · rw [isBefore, length_append, length_singleton] at inFront
    rw [if_pos (by omega), Editor.press]
    refine .moves edits ?_ ?_ ?_ (by decide) <;> rw [isBefore]
    · rw [dropLast_concat, getLast?_concat, toList_some, append_assoc]
    · rw [length_append]
      exact Nat.le_add_left 1 _
    · rw [dropLast_concat, length_append]
      rfl

theorem rightArrow_prepared :
    ∃ handled, pressKey config rl compl memory .rightArrow = some handled ∧
      Prepared size head prompt e (e.press config size compl memory .rightArrow) handled := by
  have behind := edits.behind
  have same : e.before ++ e.after.take 1 ++ e.after.drop 1 = e.before ++ e.after := by
    rw [append_assoc, take_append_drop]
  refine ⟨_, rfl, ?_⟩
  split_ifs with some_
  · refine .moves edits same (Nat.zero_le _) ?_ (by decide)
    rw [length_append, length_take]
    omega
  · refine .moves edits same (Nat.zero_le _) ?_ (by decide)
    rw [length_append, length_take]
    omega

theorem killTail_prepared :
    ∃ handled, pressKey config rl compl memory .killTail = some handled ∧
      Prepared size head prompt e (e.press config size compl memory .killTail) handled := by
  have lineIs : VstrCall.onBytes rl.line (.cutTailBytes (rl.line.length - rl.cursorPos)) =
      head ++ (e.before ++ []) := by
    have inside : rl.cursorPos ≤ rl.line.length := by
      rw [edits.cursor, edits.line_length]
      omega
    rw [VstrCall.onBytes, Nat.sub_sub_self inside, edits.line_take, append_nil]
  have printable : Printable (e.before ++ []) := by
    rw [append_nil]
    exact edits.before_printable
  have noneBehind : ([] : List Nat).length < 1000 := by decide
  refine ⟨_, rfl, @Prepared.replaces _ _ _ _ _ _ 0 [] (edits.edited lineIs printable) edits.cursor
    rfl (Nat.zero_le _) ?_ (by decide) noneBehind⟩
  rw [append_nil, Nat.sub_zero, take_length]
  rfl

theorem killHead_prepared (near : e.Near compl .killHead) :
    ∃ handled, pressKey config rl compl memory .killHead = some handled ∧
      Prepared size head prompt e (e.press config size compl memory .killHead) handled := by
  have lineIs : VstrCall.onBytes rl.line (.cutOutBytes rl.origLineLen e.before.length) =
      head ++ ([] ++ e.after) := by
    have cursor : rl.origLineLen + e.before.length = rl.cursorPos := by
      rw [edits.orig, edits.cursor]
    rw [VstrCall.onBytes, cursor, edits.line_take_orig, edits.line_drop, nil_append]
  refine ⟨_, rfl, ?_⟩
  rw [edits.inFront]
  refine @Prepared.replaces _ _ _ _ _ _ e.before.length [] (edits.edited lineIs
    edits.after_printable) edits.cursor rfl le_rfl ?_ near.1 near.2
  rw [append_nil, Nat.sub_self, take_zero]
  rfl

theorem printable_prepared {c : Nat} (near : e.Near compl (.printable c))
    (isPrintable : 32 ≤ c ∧ c ≤ 126) :
    ∃ handled, pressKey config rl compl memory (.printable c) = some handled ∧
      Prepared size head prompt e (e.press config size compl memory (.printable c)) handled := by
  have lineIs : VstrCall.onBytes rl.line (.insChar rl.cursorPos c none) =
      head ++ (e.before ++ [c] ++ e.after) := by
    rw [VstrCall.onBytes, edits.line_take, edits.line_drop, Nat.mod_eq_of_lt (by omega),
      append_assoc, append_assoc, append_assoc]
  have single : Printable [c] := by
    intro char member
    rw [mem_singleton.mp member]
    exact isPrintable
  refine ⟨_, rfl, @Prepared.replaces _ _ _ _ _ _ 0 [c] (edits.edited lineIs
    ((edits.before_printable.append single).append edits.after_printable)) edits.cursor rfl
    (Nat.zero_le _) ?_ (by decide) near⟩
  rw [Nat.sub_zero, take_length]
  rfl

end

/-- Every key prepares the line and the redraw for the text that a plain editor has next. -/
theorem pressKey_spec (edits : Edits size head prompt rl e) (positive : 0 < size)
    {compl : Completion} (plain : compl.Plain) {memory : Bool} {key : Key} (near : e.Near compl key)
    (isPrintable : ∀ c, key = .printable c → 32 ≤ c ∧ c ≤ 126) :
    ∃ handled, pressKey config rl compl memory key = some handled ∧
      Prepared size head prompt e (e.press config size compl memory key) handled := by
  cases key with
  | finish c => exact ⟨_, rfl, .returns { edits with } ⟨rfl, rfl⟩ rfl (.inl rfl)⟩
  | home =>
    refine ⟨_, rfl, ?_⟩
    rw [edits.inFront]
    exact .moves edits rfl le_rfl (by rw [Nat.sub_self]; rfl) near
  | leftArrow => exact leftArrow_prepared edits
  | delete => exact delete_prepared edits near
  | end_ =>
    refine ⟨_, rfl, ?_⟩
    rw [edits.behind]
    exact .moves edits (append_nil _) (Nat.zero_le _) length_append.symm (by decide)
  | rightArrow => exact rightArrow_prepared edits
  | killTail => exact killTail_prepared edits
  | downArrow => exact downArrow_prepared edits near
  | upArrow => exact upArrow_prepared edits near
  | killHead => exact killHead_prepared edits near
  | newline => exact ⟨_, rfl, .returns (edits.pushed positive memory) ⟨rfl, rfl⟩ rfl (.inr rfl)⟩
  | backspace => exact backspace_prepared edits near
  | tab => exact tab_prepared edits plain near
  | printable c => exact printable_prepared edits near (isPrintable c rfl)
  | nothing => exact ⟨_, rfl, .stays edits⟩

theorem keyOf_printable {escapeSeq : EscapeSeq} {digit typed c : Nat} {emptyLine : Bool}
    (isKey : (keyOf config escapeSeq digit emptyLine typed).1 = .printable c) :
    32 ≤ c ∧ c ≤ 126 := by
  cases escapeSeq with
  | nothing =>
    have isPlain : plainKey config emptyLine typed = .printable c := isKey
    rw [plainKey] at isPlain
    simp only [ite_eq_iff, reduceCtorEq, and_false, false_or, or_false, Key.printable.injEq]
      at isPlain
    omega
  | esc => cases isKey
  | escBracket =>
    simp only [keyOf, bracketKey] at isKey
    split_ifs at isKey
  | escBracketDigit =>
    simp only [keyOf, digitKey] at isKey
    split_ifs at isKey
  | escO =>
    simp only [keyOf] at isKey
    split_ifs at isKey

theorem near_keyboard {compl : Completion} {key : Key} (escapeSeq : EscapeSeq) (digit : Nat)
    (near : e.Near compl key) :
    Editor.Near { e with escapeSeq := escapeSeq, escapeSeqBuf := digit } compl key := by
  cases key <;> exact near

/-- The terminal shows the text and the cursor of the next editor, or a new line. -/
def ShowsNext (prompt : List Nat) (e next : Editor) (r : Option Nat) (sent : List Nat) : Prop :=
  (showing (prompt ++ e.text) (prompt.length + e.before.length)).feed sent =
      showing (prompt ++ next.text) (prompt.length + next.before.length) ∨
    r.isSome = true ∧
      (showing (prompt ++ e.text) (prompt.length + e.before.length)).feed sent = showing [] 0

theorem Prepared.finishes {next : Editor} {handled : Handled}
    (prepared : Prepared size head prompt e next handled) (running : e.ended = false) :
    ∃ r after sent, handled.finish (head.length + e.text.length) = some (r, after, sent) ∧
      Edits size head prompt after next ∧ r.isSome = next.ended ∧
      ShowsNext prompt e next r sent := by
  cases prepared with
  | @returns r after sent edits same ended sentIs =>
    refine ⟨some r, after, sent, rfl, edits, ended.symm, ?_⟩
    rcases sentIs with rfl | rfl
    · left
      rw [Editor.text, Editor.text, same.1, same.2]
      rfl
    · exact .inr ⟨rfl, rfl⟩
  | @redraws after sent redraw shown edits cursor stays shows draws lands near nearEnd =>
    have textBehind : redraw.fromCursor = true →
        next.text.length - (e.before.length - redraw.stepBack + redraw.stepForward) < 1000 := by
      intro fromCursor
      have short := nearEnd fromCursor
      rw [lands, Editor.text, length_append]
      omega
    have lineIs : after.line = head ++ next.text := edits.line
    obtain ⟨drawn, redrawn, showsNext⟩ := redrawLine_spec draws lineIs cursor edits.printable near
      textBehind
    refine ⟨none, _, sent ++ drawn, ?_, edits, ?_, .inl ?_⟩
    · rw [Handled.finish, redrawn, lands]
      rfl
    · rw [stays, running]
      rfl
    · rw [feed_append, shows, showsNext, lands]

/-- What one character does. -/
theorem readlineProcessChar_spec (edits : Edits size head prompt rl e) (positive : 0 < size)
    {typed : Typed} (plain : typed.compl.Plain)
    (near : e.Near typed.compl (e.key config typed.c).1) (running : e.ended = false) :
    ∃ r next sent, readlineProcessChar config rl typed = some (r, next, sent) ∧
      Edits size head prompt next (e.type config size typed) ∧
      r.isSome = (e.type config size typed).ended ∧
      ShowsNext prompt e (e.type config size typed) r sent := by
  have emptyLine : decide (rl.line.length = rl.origLineLen) = decide (e.text = []) := by
    rw [edits.line, edits.orig, length_append]
    refine decide_eq_decide.mpr ⟨fun same => length_eq_zero_iff.mp (by omega), fun none_ => ?_⟩
    rw [none_, length_nil, Nat.add_zero]
  have sameKey : keyOf config rl.escapeSeq rl.escapeSeqBuf (rl.line.length = rl.origLineLen) typed.c =
      e.key config typed.c := by
    rw [emptyLine, edits.escapeSeq, edits.digit, Editor.key]
  have lastLine : rl.line.length = head.length + e.text.length := by
    rw [edits.line, length_append]
  have isPrintable := fun c => @keyOf_printable config e.escapeSeq e.escapeSeqBuf typed.c c
    (e.text = [])
  rw [← Editor.key] at isPrintable
  rcases keyIs : e.key config typed.c with ⟨key, escapeSeq, digit⟩
  rw [keyIs] at sameKey near isPrintable
  have keyboard : Edits size head prompt
      { rl with escapeSeq := escapeSeq, escapeSeqBuf := digit }
      { e with escapeSeq := escapeSeq, escapeSeqBuf := digit } :=
    { edits with escapeSeq := rfl, digit := rfl }
  obtain ⟨handled, presses, prepared⟩ := @pressKey_spec config _ _ _ _ _ keyboard positive _ plain
    typed.memory key (near_keyboard escapeSeq digit near) isPrintable
  have nextIs : e.type config size typed = Editor.press config size
      { e with escapeSeq := escapeSeq, escapeSeqBuf := digit } typed.compl typed.memory key := by
    rw [Editor.type, running, keyIs]
    rfl
  have processed : readlineProcessChar config rl typed = handled.finish rl.line.length := by
    rw [readlineProcessChar, sameKey]
    simp only [presses, bind_eq_bind, bind_some]
  rw [processed, lastLine, nextIs]
  exact prepared.finishes running

end Keys

/-! ## What is typed -/

/-- The line editor and a plain editor at the beginning of a line, with the indent. -/
def startBoth (config : ReplConfig) (size : Nat) (head prompt : List Nat)
    (history : List (List Nat)) : Session × Editor :=
  let (rl, sent) := readlineInit config head prompt
    (history.map some ++ List.replicate (size - history.length) none)
  ({ rl := rl, terminal := (showing [] 0).feed sent, ended := false },
    { before := List.replicate (if config.autoIndent then 4 * autoIndents head else 0) 32
      after := []
      history := history
      shown := 0
      escapeSeq := .nothing
      escapeSeqBuf := 0
      ended := false })

/-- The invariant of what is typed. -/
structure InStep (size : Nat) (head prompt : List Nat) (both : Session × Editor) : Prop where
  edits : Edits size head prompt both.1.rl both.2
  ended : both.1.ended = both.2.ended
  terminal : both.1.terminal =
      showing (prompt ++ both.2.text) (prompt.length + both.2.before.length) ∨
    both.1.ended = true ∧ both.1.terminal = showing [] 0

section Typed

variable {config : ReplConfig} {size : Nat} {head prompt shownPrompt : List Nat}
  {both next : Session × Editor}

theorem InStep.lineMeets (inStep : InStep size head prompt both) :
    LineMeets head prompt both.1 both.2 := by
  have edits := inStep.edits
  have cursor := edits.cursor
  have length := edits.line_length
  refine ⟨inStep.ended, ?_, ⟨edits.orig, ?_⟩, edits.line_drop_orig, edits.inFront, ?_⟩
  · rw [edits.orig]
    omega
  · rw [← edits.orig, edits.line_take_orig]
  · rw [edits.line_drop_orig, edits.inFront]
    exact inStep.terminal

theorem startBoth_inStep {history : List (List Nat)} (fits : history.length ≤ size)
    (printable : ∀ entry ∈ history, Printable entry)
    (prompted : (showing [] 0).feed prompt = showing shownPrompt shownPrompt.length) :
    InStep size head shownPrompt (startBoth config size head prompt history) := by
  have spaces : Printable
      (List.replicate (if config.autoIndent then 4 * autoIndents head else 0) 32) := by
    intro char member
    rw [eq_of_mem_replicate member]
    decide
  refine ⟨?_, rfl, .inl ?_⟩
  · exact
      { line := congrArg (head ++ ·) (append_nil _).symm
        orig := rfl
        cursor := rfl
        prompt := prompted
        escapeSeq := rfl
        digit := rfl
        histCur := rfl
        shown := Nat.zero_le _
        hist := rfl
        fits := fits
        printable := by rwa [Editor.text, startBoth, append_nil]
        entries := printable }
  · have drawn := @feed_print shownPrompt.length shownPrompt [] _ spaces rfl
    rw [append_nil, drop_nil, append_nil] at drawn
    show (showing [] 0).feed (prompt ++ _) = _
    rw [feed_append, prompted, drawn, Editor.text, startBoth, append_nil]

theorem typeBoth_inStep (inStep : InStep size head prompt both) (positive : 0 < size) {typed : Typed}
    (plain : typed.compl.Plain)
    (near : both.2.ended = true ∨ both.2.Near typed.compl (both.2.key config typed.c).1) :
    ∃ next, typeBoth config size both typed = some ((), next) ∧ InStep size head prompt next := by
  cases running : both.2.ended with
  | true =>
    have same : both.1.type config typed = some both.1 := by
      rw [Session.type, inStep.ended, running, if_pos rfl]
    have sameEditor : both.2.type config size typed = both.2 := by
      rw [Editor.type, running, if_pos rfl]
    refine ⟨both, ?_, inStep⟩
    rw [typeBoth, same, sameEditor]
    rfl
  | false =>
    have close := near.resolve_left (by rw [running]; decide)
    obtain ⟨r, rl, sent, processed, edits, ended, shows⟩ :=
      readlineProcessChar_spec inStep.edits positive plain close running
    have terminal := inStep.terminal.resolve_right fun isEnded => by
      rw [inStep.ended, running] at isEnded
      exact absurd isEnded.1 (by decide)
    refine ⟨({ rl := rl, terminal := both.1.terminal.feed sent, ended := r.isSome },
      both.2.type config size typed), ?_, edits, ended, ?_⟩
    · rw [typeBoth, Session.type, inStep.ended, running, if_neg (by decide), processed]
      rfl
    · rw [terminal]
      exact shows

/-- As long as the cursor is moved back by less than 1000 columns at once, the line is that of a plain
editor, and the terminal shows it. -/
theorem readline_shows {history : List (List Nat)} (positive : 0 < size)
    (fits : history.length ≤ size) (printable : ∀ entry ∈ history, Printable entry)
    (prompted : (showing [] 0).feed prompt = showing shownPrompt shownPrompt.length)
    (typed : List Typed) (plain : ∀ key ∈ typed, key.compl.Plain)
    (near : ∀ made ∈ attempted (typeBoth config size) (startBoth config size head prompt history)
      typed, made.1.2.ended = true ∨
        made.1.2.Near made.2.compl (made.1.2.key config made.2.c).1) :
    LineMeets head shownPrompt (startBoth config size head prompt history).1
        (startBoth config size head prompt history).2 ∧
      AllAnswered (typeBoth config size) (fun _ _ _ next => LineMeets head shownPrompt next.1 next.2)
        (startBoth config size head prompt history) typed := by
  have initial := @startBoth_inStep config size head _ _ _ fits printable prompted
  refine ⟨initial.lineMeets, AllAnswered.of_condition (InStep size head shownPrompt)
    (fun both key => key.compl.Plain ∧
      (both.2.ended = true ∨ both.2.Near key.compl (both.2.key config key.c).1)) ?_ initial typed
    fun made member => ⟨plain _ (attempted_mem member), near made member⟩⟩
  intro both key inStep condition
  obtain ⟨next, types, nextIs⟩ := typeBoth_inStep inStep positive condition.1 condition.2
  exact ⟨(), next, types, nextIs.lineMeets, nextIs⟩

end Typed

/-- A character that is typed where there is nothing to complete. -/
def pressed (c : Nat) : Typed := { c := c, compl := .completes [], memory := true }

/-- The line before is recalled and changed at its beginning, and the end is deleted. -/
theorem readline_shows_recalled :
    let config := { emacsKeys := true, autoIndent := true, helperRepl := true : ReplConfig }
    let start := startBoth config 8 [] [62, 32] [[97, 98, 99]]
    let typed := [27, 91, 65, 1, 120, 6, 11, 9, 8, 13].map pressed
    LineMeets [] [62, 32] start.1 start.2 ∧
      AllAnswered (typeBoth config 8) (fun _ _ _ next => LineMeets [] [62, 32] next.1 next.2) start
        typed :=
  readline_shows (by decide) (by decide) (by unfold Printable; decide) (by decide) _
    (by unfold pressed Completion.Plain Printable; simp) (by decide)

/-- If the line before has 1000 characters, to recall it and to go to its beginning stores a byte
outside of the buffer for the command. -/
theorem readline_stores_outside :
    let config := { emacsKeys := true, autoIndent := true, helperRepl := true : ReplConfig }
    ¬AllAnswered (typeBoth config 8) (fun _ _ _ next => LineMeets [] [62, 32] next.1 next.2)
      (startBoth config 8 [] [62, 32] [List.replicate 1000 97]) ([27, 91, 65, 1].map pressed) :=
  fun answered => answered.comes_back (by decide +kernel)

end MultiPython.Repl
