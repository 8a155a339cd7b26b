import EceLib.Cli.Completions
import EceLib.Cli.Editor

/-!
# `cli_loop` byte by byte

The two loops of `cli_loop` put together: a byte from the terminal goes to the
line editor, and a key that ends a line goes on to the session.  The line editor
reads the state, the mode, the history and the completions of the session.  A
run has no result if the line editor leaves its buffer.  In any other the
session is in a state that it reaches with lines alone, so what holds of every
session holds whatever is typed.
-/

namespace EceLib.Cli

open Support

variable {κ ω : Type}

/-! ## The loops -/

/-- What the line editor reads of a session. -/
def Session.context (hostname : List Char) (s : Session κ ω) : Context where
  login := s.cli.state == .login
  secret := s.cli.state == .password || s.cli.state == .enablePassword
  configuring := s.cli.mode != MODE_EXEC
  prompt := hostname ++ s.cli.modestring.getD [] ++ s.cli.promptchar
  history := s.cli.history
  completions := getCompletions s.cli

/-- `cmd` and `l` behind the inner loop. -/
def Editor.entered (ed : Editor) : Option Entered :=
  (ed.str 0).map fun text =>
    ⟨decide (ed.l = 0), decide (ed.l ≠ 0) && ed.cmd (ed.l - 1) == '?', text⟩

/-- The line with which the next turn begins behind a question mark. -/
def Editor.kept (ed : Editor) : Option Editor :=
  (ed.store (ed.l - 1) '\x00').map fun ed =>
    { ed with l := ed.l - 1, cursor := ed.l - 1, inHistory := 0, lastchar := '\x00' }

/-- What a key does outside the line editor: the event of the session, the line that
is edited next and what was written. -/
def Outcome.turn : Outcome → Option (Option Event × Editor × List Char)
  | .more out ed => some (none, ed, out)
  | .leaves out ed => some (some .ctrlZ, ed, out)
  | .enter out ed => ed.entered.map fun e => (some (.line e), .blank, out)
  | .asks out ed => do
    let e ← ed.entered
    let next ← ed.kept
    pure (some (.line e), next, out)
  | .closed => some (some .closed, .blank, [])

/-- The variables of `cli_loop`. -/
structure Console (κ ω : Type) where
  hostname : List Char
  session : Session κ ω
  pending : Pending
  editor : Editor

/-- What a run has done: the events of the session, what the line editor has written
and the functions that were called. -/
structure Trace (κ : Type) where
  events : List Event
  written : List Char
  calls : List (Call κ)

def Trace.append (t u : Trace κ) : Trace κ :=
  ⟨t.events ++ u.events, t.written ++ u.written, t.calls ++ u.calls⟩

/-- A byte from the terminal. -/
def consoleStep (program : Program κ ω) (c : Console κ ω) (byte : Char) :
    Option (Console κ ω × Trace κ) :=
  if c.session.running then do
    let (p, outcome) ← keyStep (c.session.context c.hostname) c.pending c.editor byte
    let (event, ed, out) ← outcome.turn
    match event with
    | none => pure ({ c with pending := p, editor := ed }, ⟨[], out, []⟩)
    | some e =>
      let result := sessionStep program c.session e
      pure ({ c with session := result.1, pending := p, editor := ed }, ⟨[e], out, result.2⟩)
  else some (c, ⟨[], [], []⟩)

def consoleRun (program : Program κ ω) : Console κ ω → List Char → Option (Console κ ω × Trace κ)
  | c, [] => some (c, ⟨[], [], []⟩)
  | c, byte :: bytes => do
    let (c, t) ← consoleStep program c byte
    let (c, u) ← consoleRun program c bytes
    pure (c, t.append u)

/-- The beginning of `cli_loop`. -/
def Console.start (program : Program κ ω) (hostname : List Char) (cli : CliDef κ ω) :
    Console κ ω :=
  ⟨hostname, loopStart program cli, ⟨0, 0⟩, .blank⟩

/-! ## A run of bytes is a run of the session -/

/-- What a byte does to the session is what its event does. -/
theorem consoleStep_cases {program : Program κ ω} {c c' : Console κ ω} {byte : Char} {t : Trace κ}
    (h : consoleStep program c byte = some (c', t)) :
    (c'.session = c.session ∧ t.events = [] ∧ t.calls = []) ∨
      ∃ e, c'.session = (sessionStep program c.session e).1 ∧ t.events = [e] ∧
        t.calls = (sessionStep program c.session e).2 := by
  rw [consoleStep] at h
  split at h
  · simp only [Option.bind_eq_bind, Option.bind_eq_some_iff, Prod.exists] at h
    obtain ⟨p, outcome, -, event, ed, out, -, h⟩ := h
    cases event with
    | none =>
        obtain ⟨rfl, rfl⟩ := Prod.mk.inj (Option.some.inj h)
        exact .inl ⟨rfl, rfl, rfl⟩
    | some e =>
        obtain ⟨rfl, rfl⟩ := Prod.mk.inj (Option.some.inj h)
        exact .inr ⟨e, rfl, rfl, rfl⟩
  · obtain ⟨rfl, rfl⟩ := Prod.mk.inj (Option.some.inj h)
    exact .inl ⟨rfl, rfl, rfl⟩

/-- A call is made by one of the events, in the state in which it comes. -/
def CalledIn (program : Program κ ω) (s : Session κ ω) (events : List Event) (call : Call κ) :
    Prop :=
  ∃ pre e post, events = pre ++ e :: post ∧
    call ∈ (sessionStep program (sessionRun program s pre) e).2

theorem CalledIn.cons {program : Program κ ω} {s : Session κ ω} {e : Event} {events : List Event}
    {call : Call κ} (h : CalledIn program (sessionStep program s e).1 events call) :
    CalledIn program s (e :: events) call := by
  obtain ⟨pre, e', post, rfl, hcall⟩ := h
  exact ⟨e :: pre, e', post, rfl, hcall⟩

/-- The session is where its events lead, and its events make the calls. -/
theorem consoleRun_session {program : Program κ ω} (bytes : List Char) {c c' : Console κ ω}
    {t : Trace κ} (h : consoleRun program c bytes = some (c', t)) :
    c'.session = sessionRun program c.session t.events ∧
      ∀ call ∈ t.calls, CalledIn program c.session t.events call := by
  induction bytes generalizing c t with
  | nil =>
      obtain ⟨rfl, rfl⟩ := Prod.mk.inj (Option.some.inj h)
      exact ⟨rfl, by simp⟩
  | cons byte bytes ih =>
      simp only [consoleRun, Option.bind_eq_bind, Option.bind_eq_some_iff, Prod.exists] at h
      obtain ⟨c₁, t₁, hstep, c₂, t₂, hrun, h⟩ := h
      obtain ⟨rfl, rfl⟩ := Prod.mk.inj (Option.some.inj h)
      obtain ⟨hsession, hcalls⟩ := ih hrun
      rcases consoleStep_cases hstep with ⟨hsame, hevents, hnone⟩ | ⟨e, hnext, hevents, hmade⟩
      · rw [hsame] at hsession hcalls
        simp only [Trace.append, hevents, hnone, List.nil_append]
        exact ⟨hsession, hcalls⟩
      · rw [hnext] at hsession hcalls
        simp only [Trace.append, hevents, hmade, List.singleton_append]
        refine ⟨hsession, fun call hcall => ?_⟩
        rcases List.mem_append.mp hcall with hcall | hcall
        · exact ⟨[], e, t₂.events, rfl, hcall⟩
        · exact (hcalls call hcall).cons

/-! ## Authority at the terminal -/

/-- In a run of bytes that keeps the line editor inside its buffer, every call is
made by a line in front of which somebody has logged in, and a call that needs a
privilege by one in front of which the password of `enable` was given. -/
theorem console_authorised {program : Program κ ω} (htame : program.Tame) (hostname : List Char)
    (cli : CliDef κ ω) (bytes : List Char) {c : Console κ ω} {t : Trace κ}
    (hrun : consoleRun program (.start program hostname cli) bytes = some (c, t)) {call : Call κ}
    (hcall : call ∈ t.calls) :
    ∃ pre e post, t.events = pre ++ e :: post ∧
      call ∈ (sessionStep program (sessionRun program (loopStart program cli) pre) e).2 ∧
      (program.isOpen ∨ Happened program (loopStart program cli) pre (Admits program)) ∧
      (program.Guarded → PRIVILEGE_UNPRIVILEGED < call.command.privilege →
        Happened program (loopStart program cli) pre (Enables program)) := by
  obtain ⟨pre, e, post, hevents, hmade⟩ := (consoleRun_session bytes hrun).2 call hcall
  obtain ⟨hinside, hpriv, hallowed⟩ := (sessionStep_authorised htame _ e).calls call hmade
  obtain ⟨hlogin, hprivileged⟩ := sessionRun_authorised htame cli pre
  refine ⟨pre, e, post, hevents, hmade, hlogin hinside, fun hguarded hneeds => ?_⟩
  have hpos : PRIVILEGE_UNPRIVILEGED < call.privilege := lt_of_lt_of_le hneeds hallowed
  rw [hpriv] at hpos
  exact hprivileged hguarded hpos

/-- Bob, who knows both passwords, has the secret shown, with a slip of the finger. -/
theorem console_authorised_vault :
    ∃ c t pre e post, consoleRun vaultProgram (.start vaultProgram [] vaultCli)
        "bob\rpx\x08w\ren\rroot\rsh sec\r".toList = some (c, t) ∧
      t.events = pre ++ e :: post ∧
      Happened vaultProgram (loopStart vaultProgram vaultCli) pre (Enables vaultProgram) := by
  have heval : (consoleRun vaultProgram (.start vaultProgram [] vaultCli)
      "bob\rpx\x08w\ren\rroot\rsh sec\r".toList).any (fun r =>
        r.2.calls.any fun call => call.command.privilege == PRIVILEGE_PRIVILEGED) = true := by
    decide +kernel
  rw [Option.any_eq_true] at heval
  obtain ⟨⟨c, t⟩, hrun, hcalls⟩ := heval
  obtain ⟨call, hmem, hpriv⟩ := List.any_eq_true.mp hcalls
  obtain ⟨pre, e, post, hevents, _, _, henabled⟩ :=
    console_authorised vaultProgram_tame [] vaultCli _ hrun hmem
  refine ⟨c, t, pre, e, post, hrun, hevents, henabled ?_ ?_⟩
  · exact fun h => absurd h.1 (by simp [vaultProgram])
  · rw [eq_of_beq hpriv]
    decide

end EceLib.Cli
