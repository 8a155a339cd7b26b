import EceLib.Rule.Syntax
import Mathlib.Data.List.Basic

/-!
# The line editor of `cli_loop`

The inner loop of `cli_loop`: what each byte from the terminal does to the line,
`cmd` with its length `l` and the cursor, and what is written back.  `cmd` has
4096 bytes, and a step that would touch a byte behind them has no result.
`skip` is never set and `insertmode` never changed, so both are left out.
-/

namespace EceLib.Cli

def CLI_MAX_LINE_LENGTH : ℕ := 4096

def CTRL (c : Char) : Char := Char.ofNat (c.toNat - '@'.toNat)

def bell : Char := '\x07'

def backspace : Char := '\x08'

/-! ## The bytes that are no characters -/

/-- `is_telnet_option` and `esc`. -/
structure Pending where
  telnet : ℕ
  esc : ℕ
deriving DecidableEq

/-- A byte may belong to a telnet command or to an escape sequence; otherwise it
is the character that is handled. -/
def decode (p : Pending) (c : Char) : Pending × Option Char :=
  let n := c.toNat
  if n = 255 ∧ p.telnet = 0 then ({ p with telnet := 1 }, none)
  else if p.telnet ≠ 0 ∧ 251 ≤ n ∧ n ≤ 254 then ({ p with telnet := n }, none)
  else if p.telnet ≠ 0 ∧ n ≠ 255 then ({ p with telnet := 0 }, none)
  else
    let p := { p with telnet := 0 }
    if p.esc = 0 then
      if c = '\x1b' then ({ p with esc := 1 }, none) else (p, some c)
    else if p.esc = '['.toNat then
      let c :=
        if c = 'A' then CTRL 'P'
        else if c = 'B' then CTRL 'N'
        else if c = 'C' then CTRL 'F'
        else if c = 'D' then CTRL 'B'
        else '\x00'
      ({ p with esc := 0 }, some c)
    else ({ p with esc := if c = '[' then '['.toNat else 0 }, none)

/-! ## The line -/

/-- The local variables of the inner loop. -/
structure Editor where
  cmd : ℕ → Char
  l : ℕ
  cursor : ℕ
  inHistory : ℤ
  lastchar : Char

/-- The line with which the loop begins. -/
def Editor.blank : Editor where
  cmd := fun _ => '\x00'
  l := 0
  cursor := 0
  inHistory := 0
  lastchar := '\x00'

/-- The bytes from `i` on, `n` of them. -/
def Editor.bytes (ed : Editor) (i n : ℕ) : List Char := (List.range n).map fun k => ed.cmd (i + k)

/-- The string at `cmd + i`, if it ends in the buffer. -/
def Editor.str (ed : Editor) (i : ℕ) : Option (List Char) :=
  if (ed.bytes i (CLI_MAX_LINE_LENGTH - i)).contains '\x00' then
    some ((ed.bytes i (CLI_MAX_LINE_LENGTH - i)).takeWhile (· ≠ '\x00'))
  else none

/-- `cmd[i] = c`. -/
def Editor.store (ed : Editor) (i : ℕ) (c : Char) : Option Editor :=
  if i < CLI_MAX_LINE_LENGTH then
    some { ed with cmd := fun k => if k = i then c else ed.cmd k }
  else none

/-- `memset(cmd + i, 0, n)`. -/
def Editor.zero (ed : Editor) (i n : ℕ) : Option Editor :=
  if i + n ≤ CLI_MAX_LINE_LENGTH then
    some { ed with cmd := fun k => if i ≤ k ∧ k < i + n then '\x00' else ed.cmd k }
  else none

/-- `strcpy(cmd + i, s)`, with the terminator. -/
def Editor.copy (ed : Editor) (i : ℕ) (s : List Char) : Option Editor :=
  if i + s.length < CLI_MAX_LINE_LENGTH then
    some { ed with
      cmd := fun k => if i ≤ k ∧ k ≤ i + s.length then s.getD (k - i) '\x00' else ed.cmd k }
  else none

/-- What a step writes to the terminal, and the line after it. -/
abbrev Written := List Char × Editor

/-- `n` times the same character. -/
def times (n : ℕ) (c : Char) : List Char := List.replicate n c

/-- `cli_clear_line`: the line is cleared on the terminal with the help of the
buffer.  `l` and `cursor` are parameters, and the caller's keep their values. -/
def clearLine (ed : Editor) : Option Written := do
  let ed' ← ed.zero 0 (3 * ed.l)
  pure (times (ed.l - ed.cursor) ' ' ++ times ed.l backspace ++ times ed.l ' ' ++
    times ed.l backspace, ed')

/-! ## The keys -/

/-- What the inner loop reads of the session. -/
structure Context where
  /-- `STATE_LOGIN` -/
  login : Bool
  /-- `STATE_PASSWORD` or `STATE_ENABLE_PASSWORD` -/
  secret : Bool
  /-- `mode` is not `MODE_EXEC` -/
  configuring : Bool
  /-- what `show_prompt` writes -/
  prompt : List Char
  history : List (List Char)
  /-- `cli_get_completions` -/
  completions : List Char → List (List Char)

/-- What a key leads to. -/
inductive Outcome where
  /-- the next byte is read -/
  | more (out : List Char) (ed : Editor)
  /-- the mode is left -/
  | leaves (out : List Char) (ed : Editor)
  /-- the line is complete -/
  | enter (out : List Char) (ed : Editor)
  /-- the line is complete, and stays without its question mark -/
  | asks (out : List Char) (ed : Editor)
  /-- `l` is negative -/
  | closed

variable (ctx : Context)

/-- What is written when `showprompt` is set, at a prompt for commands. -/
def promptLine (ed : Editor) : List Char :=
  ['\r', '\n'] ++ ctx.prompt ++ ed.bytes 0 ed.l ++ times (ed.l - ed.cursor) backspace

/-- One character is taken away in front of the cursor. -/
def backChar (ed : Editor) : Option Written :=
  if ed.cursor = 0 then none
  else if ed.l = ed.cursor then do
    let ed' ← ed.store (ed.cursor - 1) '\x00'
    pure (if ctx.secret then [] else [backspace, ' ', backspace],
      { ed' with l := ed.l - 1, cursor := ed.cursor - 1 })
  else if ctx.secret then
    -- the characters behind are not moved
    pure ([], { ed with l := ed.l - 1, cursor := ed.cursor - 1 })
  else if ed.l + 1 < CLI_MAX_LINE_LENGTH then do
    let cursor := ed.cursor - 1
    let ed' := { ed with
      cmd := fun k => if cursor ≤ k ∧ k ≤ ed.l then ed.cmd (k + 1) else ed.cmd k }
    let rest ← ed'.str cursor
    pure ([backspace] ++ rest ++ [' '] ++ times (rest.length + 1) backspace,
      { ed' with l := ed.l - 1, cursor := cursor })
  else none

/-- `while (back--)`. -/
def backChars : ℕ → Editor → Option Written
  | 0, ed => some ([], ed)
  | back + 1, ed => do
    let (out, ed) ← backChar ctx ed
    let (out', ed) ← backChars back ed
    pure (out ++ out', ed)

/-- The length of the word in front of the cursor, with the blanks behind it. -/
def wordBack (ed : Editor) : ℕ :=
  let before := (ed.bytes 0 ed.cursor).reverse
  let blanks := (before.takeWhile (· == ' ')).length
  blanks + ((before.drop blanks).takeWhile (· != ' ')).length

/-- `CTRL('W')`, `CTRL('H')` and delete. -/
def backKey (ed : Editor) (c : Char) : Option Outcome :=
  if ed.l = 0 ∨ ed.cursor = 0 then
    some (.more (if c = CTRL 'W' then [] else [bell]) ed)
  else do
    let (out, ed) ← backChars ctx (if c = CTRL 'W' then wordBack ed else 1) ed
    pure (.more out ed)

/-- `CTRL('U')`. -/
def clearKey (ed : Editor) : Option Outcome := do
  let (out, ed') ← if ctx.secret then do pure ([], ← ed.zero 0 ed.l) else clearLine ed
  pure (.more out { ed' with l := 0, cursor := 0 })

/-- `CTRL('K')`. -/
def killKey (ed : Editor) : Option Outcome :=
  if ed.cursor = ed.l then some (.more [] ed)
  else do
    let n := ed.l - ed.cursor
    let ed' ← ed.zero ed.cursor n
    pure (.more (if ctx.secret then [] else times n ' ' ++ times n backspace)
      { ed' with l := ed.cursor })

/-- `CTRL('Z')`. -/
def leaveKey (ed : Editor) : Option Outcome :=
  if ctx.configuring then do
    let (out, ed) ← clearLine ed
    pure (.leaves out ed)
  else some (.more [] ed)

/-- The completions in columns. -/
def completionTable : List (List Char) → ℕ → List Char
  | [], i => if i % 4 ≠ 3 then ['\r', '\n'] else []
  | c :: cs, i => c ++ (if i % 4 = 3 then ['\r', '\n'] else [' ']) ++ completionTable cs (i + 1)

/-- The length of the last word, which a completion replaces. -/
def lastWord (ed : Editor) : ℕ :=
  ((ed.bytes 0 ed.l).reverse.takeWhile fun c => c != ' ' && c != '|').length

/-- `CTRL('I')`. -/
def tabKey (ed : Editor) : Option Outcome :=
  if ctx.login ∨ ctx.secret ∨ ed.cursor ≠ ed.l then some (.more [] ed)
  else do
    let text ← ed.str 0
    match ctx.completions text with
    | [] => pure (.more [bell] ed)
    | [completion] =>
      let n := lastWord ed
      let ed' ← ed.copy (ed.l - n) completion
      let l := ed.l - n + completion.length
      let ed' ← ed'.store l ' '
      pure (.more (times n backspace ++ completion ++ [' '])
        { ed' with l := l + 1, cursor := l + 1 })
    | completions =>
      if ed.lastchar = CTRL 'I' then
        pure (.more (['\r', '\n'] ++ completionTable completions 0 ++ promptLine ctx ed) ed)
      else pure (.more [bell] { ed with lastchar := CTRL 'I' })

/-- The entry of the history that is shown, and `in_history`. -/
def historyKey (inHistory : ℤ) (up : Bool) : ℤ × Option (List Char) :=
  if up then
    if inHistory - 1 < 0 then
      (ctx.history.length - 1, ctx.history.getLast?)
    else (inHistory - 1, ctx.history[(inHistory - 1).toNat]?)
  else
    match ctx.history[(inHistory + 1).toNat]? with
    | some cmd => (inHistory + 1, some cmd)
    | none => if ctx.history = [] then (inHistory + 1, none) else (0, ctx.history.head?)

/-- `CTRL('P')` and `CTRL('N')`. -/
def historyStep (ed : Editor) (up : Bool) : Option Outcome :=
  if ctx.login ∨ ctx.secret then some (.more [] ed)
  else
    let (inHistory, found) := historyKey ctx ed.inHistory up
    let ed := { ed with inHistory := inHistory }
    match found with
    | none => some (.more [] ed)
    | some cmd => do
      let (out, ed) ← clearLine ed
      let cmd := cmd.take (CLI_MAX_LINE_LENGTH - 1)
      pure (.more (out ++ cmd)
        { ed with cmd := fun k => cmd.getD k '\x00', l := cmd.length, cursor := cmd.length })

/-- The keys that move the cursor. -/
def moveKey (ed : Editor) (c : Char) : Outcome :=
  if c = CTRL 'B' then
    if ed.cursor = 0 then .more [] ed
    else .more (if ctx.secret then [] else [backspace]) { ed with cursor := ed.cursor - 1 }
  else if c = CTRL 'F' then
    if ed.cursor < ed.l then
      .more (if ctx.secret then [] else [ed.cmd ed.cursor]) { ed with cursor := ed.cursor + 1 }
    else .more [] ed
  else if c = CTRL 'A' then
    if ed.cursor = 0 then .more [] ed
    else .more (if ctx.secret then [] else '\r' :: ctx.prompt) { ed with cursor := 0 }
  else
    if ed.cursor < ed.l then
      .more (if ctx.secret then [] else ed.bytes ed.cursor (ed.l - ed.cursor))
        { ed with cursor := ed.l }
    else .more [] ed

/-- A character goes into the line; what follows it there is written anew, also
where a password is typed. -/
def insertChar (ed : Editor) (c : Char) : Option Written :=
  if ed.cursor = ed.l then do
    let ed' ← ed.store ed.cursor c
    pure ([], { ed' with l := ed.l + 1, cursor := ed.cursor + 1 })
  else
    let l := if ed.l ≥ CLI_MAX_LINE_LENGTH - 2 then ed.l - 1 else ed.l
    if l + 1 < CLI_MAX_LINE_LENGTH then
      let ed' := { ed with
        cmd := fun k =>
          if k = ed.cursor then c
          else if ed.cursor < k ∧ k ≤ l + 1 then ed.cmd (k - 1)
          else ed.cmd k }
      let n := l - ed.cursor + 1
      pure (ed'.bytes ed.cursor n ++ times n backspace,
        { ed' with l := l + 1, cursor := ed.cursor + 1 })
    else none

/-- A character that has no other meaning is typed. -/
def typeKey (ed : Editor) (c : Char) : Option Outcome :=
  if ed.cursor = ed.l ∧ ¬ ed.l < CLI_MAX_LINE_LENGTH - 1 then do
    let ed' ← ed.store ed.cursor c
    pure (.more [bell] ed')
  else do
    let (out, ed) ← insertChar ed c
    if ctx.secret then pure (.more out { ed with lastchar := c })
    else if c = '?' ∧ ed.cursor = ed.l then
      pure (.asks (out ++ ['\r', '\n']) { ed with cursor := ed.l - 1 })
    else pure (.more (out ++ [c]) { ed with lastchar := c })

/-- The body of the inner loop for a character. -/
def handleKey (ed : Editor) (c : Char) : Option Outcome :=
  if c = '\x00' ∨ c = '\n' then some (.more [] ed)
  else if c = '\r' then some (.enter (if ctx.secret then [] else ['\r', '\n']) ed)
  else if c = CTRL 'C' then some (.more [bell] ed)
  else if c = CTRL 'W' ∨ c = CTRL 'H' ∨ c = '\x7f' then backKey ctx ed c
  else if c = CTRL 'L' then
    some (.more (if ctx.secret then [] else promptLine ctx ed) ed)
  else if c = CTRL 'U' then clearKey ctx ed
  else if c = CTRL 'K' then killKey ctx ed
  else if c = CTRL 'D' then
    if ctx.secret then some (.enter [] ed)
    else if ed.l ≠ 0 then some (.more [] ed)
    else some .closed
  else if c = CTRL 'Z' then leaveKey ctx ed
  else if c = CTRL 'I' then tabKey ctx ed
  else if c = CTRL 'P' ∨ c = CTRL 'N' then historyStep ctx ed (c = CTRL 'P')
  else if c = CTRL 'B' ∨ c = CTRL 'F' ∨ c = CTRL 'A' ∨ c = CTRL 'E' then
    some (moveKey ctx ed c)
  else typeKey ctx ed c

/-- The characters that are handled when bytes come in. -/
def decoded : Pending → List Char → List Char
  | _, [] => []
  | p, c :: cs => (decode p c).2.toList ++ decoded (decode p c).1 cs

/-- The body of the inner loop for a byte. -/
def keyStep (p : Pending) (ed : Editor) (c : Char) : Option (Pending × Outcome) :=
  match decode p c with
  | (p, none) => some (p, .more [] ed)
  | (p, some c) => (handleKey ctx ed c).map fun outcome => (p, outcome)

/-- The inner loop: what is written, and how it ends, with the bytes that are left
for the next turn. -/
def editRun : Pending → Editor → List Char → Option (List Char × Pending × Outcome × List Char)
  | p, ed, [] => some ([], p, .more [] ed, [])
  | p, ed, c :: cs =>
    match keyStep ctx p ed c with
    | none => none
    | some (p, .more out ed) => (editRun p ed cs).map fun r => (out ++ r.1, r.2)
    | some (p, .leaves out ed) => some (out, p, .leaves out ed, cs)
    | some (p, .enter out ed) => some (out, p, .enter out ed, cs)
    | some (p, .asks out ed) => some (out, p, .asks out ed, cs)
    | some (p, .closed) => some ([], p, .closed, cs)

end EceLib.Cli
