import MultiPython.Logic.Buffer
import MultiPython.Logic.Calls
import MultiPython.Logic.Vt100
import MultiPython.Str.Vstr

/-!
# The line editor

`lib/mp-readline/readline.c`. The line is the list of bytes that the string builder holds, and the
functions of the builder are those on that list. What is sent to the terminal is a list of bytes; a
store outside of the buffer for a command has no result. `Editor` is a plain editor, which has the text
in front of the cursor and the one behind it.
-/

namespace MultiPython.Repl

open Logic Str

/-- The options of the editor: `MICROPY_REPL_EMACS_KEYS`, `MICROPY_REPL_AUTO_INDENT` and
`MICROPY_HELPER_REPL`. -/
structure ReplConfig where
  emacsKeys : Bool
  autoIndent : Bool
  helperRepl : Bool
deriving DecidableEq, Repr

/-- The values of `escape_seq`. -/
inductive EscapeSeq where
  | nothing
  | esc
  | escBracket
  | escBracketDigit
  | escO
deriving DecidableEq, Repr

/-- `readline_t`, with `readline_hist`, where a null pointer is `none`. -/
structure Readline where
  line : List Nat
  origLineLen : Nat
  escapeSeq : EscapeSeq
  histCur : Int
  cursorPos : Nat
  escapeSeqBuf : Nat
  prompt : List Nat
  hist : List (Option (List Nat))
deriving DecidableEq, Repr

/-- What `mp_repl_autocomplete` finds: many matches, which it has printed, or what completes the
word, which may be nothing. -/
inductive Completion where
  | manyMatches (printed : List Nat)
  | completes (complStr : List Nat)
deriving DecidableEq, Repr

/-- The places that the branches of `readline_process_char` lead to. -/
inductive Key where
  | finish (c : Nat)
  | home
  | leftArrow
  | delete
  | end_
  | rightArrow
  | killTail
  | downArrow
  | upArrow
  | killHead
  | newline
  | backspace
  | tab
  | printable (c : Nat)
  | nothing
deriving DecidableEq, Repr

/-- The branches for a character outside of an escape sequence; the line may be empty behind
`orig_line_len`. -/
def plainKey (config : ReplConfig) (emptyLine : Bool) (c : Nat) : Key :=
  if (1 ≤ c ∧ c ≤ 5) ∧ emptyLine then .finish c
  else if c = 1 then .home
  else if config.emacsKeys ∧ c = 2 then .leftArrow
  else if c = 3 then .finish c
  else if config.emacsKeys ∧ c = 4 then .delete
  else if c = 5 then .end_
  else if config.emacsKeys ∧ c = 6 then .rightArrow
  else if config.emacsKeys ∧ c = 11 then .killTail
  else if config.emacsKeys ∧ c = 14 then .downArrow
  else if config.emacsKeys ∧ c = 16 then .upArrow
  else if config.emacsKeys ∧ c = 21 then .killHead
  else if c = 13 then .newline
  else if c = 27 then .nothing
  else if c = 8 ∨ c = 127 then .backspace
  else if config.helperRepl ∧ c = 9 then .tab
  else if 32 ≤ c ∧ c ≤ 126 then .printable c
  else .nothing

/-- The branches behind a bracket. -/
def bracketKey (c : Nat) : Key :=
  if c = 65 then .upArrow
  else if c = 66 then .downArrow
  else if c = 67 then .rightArrow
  else if c = 68 then .leftArrow
  else if c = 72 then .home
  else if c = 70 then .end_
  else .nothing

/-- The branches behind a bracket and a digit. -/
def digitKey (digit c : Nat) : Key :=
  if c = 126 then
    if digit = 49 ∨ digit = 55 then .home
    else if digit = 52 ∨ digit = 56 then .end_
    else if digit = 51 then .delete
    else .nothing
  else .nothing

/-- The branches of `readline_process_char`, with the new escape state and digit. -/
def keyOf (config : ReplConfig) (escapeSeq : EscapeSeq) (digit : Nat) (emptyLine : Bool) (c : Nat) :
    Key × EscapeSeq × Nat :=
  match escapeSeq with
  | .nothing =>
    let key := plainKey config emptyLine c
    (key, if key = .nothing ∧ c = 27 then .esc else .nothing, digit)
  | .esc => (.nothing, if c = 91 then .escBracket else if c = 79 then .escO else .nothing, digit)
  | .escBracket =>
    if 48 ≤ c ∧ c ≤ 57 then (.nothing, .escBracketDigit, c) else (bracketKey c, .nothing, digit)
  | .escBracketDigit => (digitKey digit c, .nothing, digit)
  | .escO => (if c = 72 then .home else if c = 70 then .end_ else .nothing, .nothing, digit)

/-- `redraw_step_back`, `redraw_from_cursor` and `redraw_step_forward`. -/
structure Redraw where
  stepBack : Nat
  fromCursor : Bool
  stepForward : Nat
deriving DecidableEq, Repr

/-- No redraw. -/
def Redraw.nothing : Redraw := ⟨0, false, 0⟩

/-- How the branches end: the function returns, or goes on to the redraw; bytes may have been sent. -/
inductive Handled where
  | returns (r : Nat) (rl : Readline) (sent : List Nat)
  | redraws (rl : Readline) (sent : List Nat) (redraw : Redraw)
deriving DecidableEq, Repr

/-- `readline_push_history`, with whether there is memory for a copy of the line. -/
def readlinePushHistory (hist : List (Option (List Nat))) (line : List Nat) (memory : Bool) :
    List (Option (List Nat)) :=
  if line ≠ [] ∧ hist.head? ≠ some (some line) ∧ memory then some line :: hist.dropLast else hist

/-- The number of characters that a backspace removes. -/
def backspaceCount (config : ReplConfig) (rl : Readline) : Nat :=
  let typed := (rl.line.drop rl.origLineLen).take (rl.cursorPos - rl.origLineLen)
  let nspace := if typed.all (· = 32) then typed.length else 0
  if config.autoIndent then if nspace < 4 then 1 else 4 else 1

/-- The up arrow. -/
def upArrowKey (rl : Readline) : Handled :=
  match rl.hist[(rl.histCur + 1).toNat]? with
  | some (some entry) =>
    let line := VstrCall.onBytes (rl.line.take rl.origLineLen) (.addStrn entry none)
    .redraws { rl with histCur := rl.histCur + 1, line := line } []
      ⟨rl.cursorPos - rl.origLineLen, true, line.length - rl.origLineLen⟩
  | _ => .redraws rl [] .nothing

/-- The down arrow; no result if it follows a null pointer. -/
def downArrowKey (rl : Readline) : Option Handled :=
  if rl.histCur ≥ 0 then do
    let histCur := rl.histCur - 1
    let line := VstrCall.onBytes rl.line (.cutTailBytes (rl.line.length - rl.origLineLen))
    let line ← (if histCur ≥ 0 then
        (rl.hist[histCur.toNat]?).join.map fun entry => VstrCall.onBytes line (.addStrn entry none)
      else some line)
    some (.redraws { rl with histCur := histCur, line := line } []
      ⟨rl.cursorPos - rl.origLineLen, true, line.length - rl.origLineLen⟩)
  else some (.redraws rl [] .nothing)

/-- The tab key. -/
def tabKey (rl : Readline) : Completion → Handled
  | .manyMatches printed =>
    .redraws rl
      (printed ++ rl.prompt ++
        (rl.line.drop rl.origLineLen).take (rl.cursorPos - rl.origLineLen)) ⟨0, true, 0⟩
  | .completes complStr =>
    if complStr = [] then .redraws rl [] .nothing
    else
      .redraws { rl with line := rl.line.take rl.cursorPos ++ complStr ++ rl.line.drop rl.cursorPos }
        [] ⟨0, true, complStr.length⟩

/-- What the branches do, up to the redraw. -/
def pressKey (config : ReplConfig) (rl : Readline) (compl : Completion) (memory : Bool) :
    Key → Option Handled
  | .finish c => some (.returns c rl [])
  | .home => some (.redraws rl [] ⟨rl.cursorPos - rl.origLineLen, false, 0⟩)
  | .leftArrow =>
    some (.redraws rl [] (if rl.cursorPos > rl.origLineLen then ⟨1, false, 0⟩ else .nothing))
  | .delete =>
    some (if rl.cursorPos < rl.line.length then
      .redraws { rl with line := VstrCall.onBytes rl.line (.cutOutBytes rl.cursorPos 1) } []
        ⟨0, true, 0⟩
    else .redraws rl [] .nothing)
  | .end_ => some (.redraws rl [] ⟨0, false, rl.line.length - rl.cursorPos⟩)
  | .rightArrow =>
    some (.redraws rl [] (if rl.cursorPos < rl.line.length then ⟨0, false, 1⟩ else .nothing))
  | .killTail =>
    some (.redraws { rl with
      line := VstrCall.onBytes rl.line (.cutTailBytes (rl.line.length - rl.cursorPos)) } []
      ⟨0, true, 0⟩)
  | .downArrow => downArrowKey rl
  | .upArrow => some (upArrowKey rl)
  | .killHead =>
    some (.redraws { rl with
      line := VstrCall.onBytes rl.line
        (.cutOutBytes rl.origLineLen (rl.cursorPos - rl.origLineLen)) } []
      ⟨rl.cursorPos - rl.origLineLen, true, 0⟩)
  | .newline =>
    some (.returns 0 { rl with
      hist := readlinePushHistory rl.hist (rl.line.drop rl.origLineLen) memory } [13, 10])
  | .backspace =>
    some (if rl.cursorPos > rl.origLineLen then
      let nspace := backspaceCount config rl
      .redraws { rl with
        line := VstrCall.onBytes rl.line (.cutOutBytes (rl.cursorPos - nspace) nspace) } []
        ⟨nspace, true, 0⟩
    else .redraws rl [] .nothing)
  | .tab => some (tabKey rl compl)
  | .printable c =>
    some (.redraws { rl with line := VstrCall.onBytes rl.line (.insChar rl.cursorPos c none) } []
      ⟨0, true, 1⟩)
  | .nothing => some (.redraws rl [] .nothing)

/-- The digits of a number. -/
def decimal (n : Nat) : List Nat := ((Nat.digits 10 n).map (· + 48)).reverse

/-- `mp_hal_move_cursor_back`: `snprintf` stores at most five characters and the null character in the
buffer of six, and gives the length of the whole text. -/
def moveCursorBack (pos : Nat) : Option (List Nat) :=
  if pos ≤ 4 then some (List.replicate pos 8)
  else
    let text := 27 :: 91 :: decimal pos
    let n := text.length
    let stored := text.take 5 ++ [0]
    let vt100Command := stored ++ List.replicate (6 - stored.length) 0
    (storeAt vt100Command n [68]).map fun command => command.take (n + 1)

/-- The end of `readline_process_char`. -/
def redrawLine (lastLineLen : Nat) (rl : Readline) (redraw : Redraw) :
    Option (Readline × List Nat) := do
  let back ← (if redraw.stepBack > 0 then moveCursorBack redraw.stepBack else some [])
  let cursorPos := rl.cursorPos - redraw.stepBack
  let moved := { rl with cursorPos := cursorPos + redraw.stepForward }
  if redraw.fromCursor then
    let erase := if rl.line.length < lastLineLen then [27, 91, 75] else []
    let last ← moveCursorBack (rl.line.length - (cursorPos + redraw.stepForward))
    some (moved, back ++ erase ++ rl.line.drop cursorPos ++ last)
  else
    some (moved, back ++ (rl.line.drop cursorPos).take redraw.stepForward)

/-- What becomes of the branches: the redraw, unless the function has returned. -/
def Handled.finish (lastLineLen : Nat) : Handled → Option (Option Nat × Readline × List Nat)
  | .returns r rl sent => some (some r, rl, sent)
  | .redraws rl sent redraw =>
    (redrawLine lastLineLen rl redraw).map fun (rl, drawn) => (none, rl, sent ++ drawn)

/-- What is typed: a character, with the completion that a tab finds and whether there is memory for
the history. -/
structure Typed where
  c : Nat
  compl : Completion
  memory : Bool
deriving DecidableEq, Repr

/-- `readline_process_char`: what it returns, if not -1, and what it sends. -/
def readlineProcessChar (config : ReplConfig) (rl : Readline) (typed : Typed) :
    Option (Option Nat × Readline × List Nat) := do
  let (key, escapeSeq, escapeSeqBuf) := keyOf config rl.escapeSeq rl.escapeSeqBuf
    (rl.line.length = rl.origLineLen) typed.c
  let handled ← pressKey config { rl with escapeSeq := escapeSeq, escapeSeqBuf := escapeSeqBuf }
    typed.compl typed.memory key
  handled.finish rl.line.length

/-! ## The beginning of a line -/

/-- The first loop of `readline_auto_indent`: where the last line begins. -/
def lastLineStart (buf : List Nat) : Nat → Nat
  | 0 => 0
  | i + 1 => if buf[i]? = some 10 then i + 1 else lastLineStart buf i

/-- The loop of `readline_auto_indent` over the line before the last one, which is all spaces. -/
def spacesBefore (buf : List Nat) : Nat → Bool
  | 0 => false
  | k + 1 =>
    if buf[k]? = some 10 then true
    else if buf[k]? ≠ some 32 then false
    else spacesBefore buf k

/-- The number of indents that `readline_auto_indent` adds. -/
def autoIndents (buf : List Nat) : Nat :=
  if buf.length > 1 ∧ buf[buf.length - 1]? = some 10 then
    let i := lastLineStart buf (buf.length - 1)
    let j := i + ((buf.drop i).takeWhile (· = 32)).length
    if (i > 0 ∧ j + 1 = buf.length) ∧ spacesBefore buf (i - 1) then 0
    else (j - i) / 4 + if buf[buf.length - 2]? = some 58 then 1 else 0
  else 0

/-- `readline_init`, with what it sends. -/
def readlineInit (config : ReplConfig) (line prompt : List Nat) (hist : List (Option (List Nat))) :
    Readline × List Nat :=
  let spaces := List.replicate (if config.autoIndent then 4 * autoIndents line else 0) 32
  ({ line := line ++ spaces
     origLineLen := line.length
     escapeSeq := .nothing
     histCur := -1
     cursorPos := line.length + spaces.length
     escapeSeqBuf := 0
     prompt := prompt
     hist := hist }, prompt ++ spaces)

end MultiPython.Repl
