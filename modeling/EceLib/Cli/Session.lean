import EceLib.Cli.Permission

/-!
# A session of `cli_loop`

What a session does with the lines that are entered: the login, the question
for the password of `enable`, and the commands.  A function is called only
after somebody has logged in, and one that needs a privilege only after the
password of `enable` was given.
-/

namespace EceLib.Cli

open Support
open Json (tolower)

variable {κ ω : Type}

/-! ## The session -/

/-- The local variables of `cli_loop` that outlast a line; the loop has ended when
the session is not running. -/
structure Session (κ ω : Type) where
  cli : CliDef κ ω
  username : List Char
  running : Bool

/-- What the inner loop leaves: whether `l` is zero, whether the last of the `l`
characters is a question mark, and the text up to the terminator. -/
structure Entered where
  empty : Bool
  asks : Bool
  text : List Char

inductive Event where
  | line (e : Entered)
  | ctrlZ
  /-- `l` is negative: the end of the input, an error, or a timeout. -/
  | closed

/-- `pass_matches`. -/
def passMatches (program : Program κ ω) (pass try_ : List Char) : Bool :=
  let des := (pass.take 7).map tolower == "{crypt}".toList
  let pass := if des then pass.drop 7 else pass
  let try_ := if des || pass.take 3 == "$1$".toList then program.crypt try_ pass else try_
  pass == try_

/-- The check of the name and the password. -/
def loginAllowed (program : Program κ ω) (username password : List Char) : Bool :=
  (program.authCallback.any fun auth => auth username password) ||
    program.users.any fun u => u.1 == username && passMatches program u.2 password

/-- The check of the password of `enable`. -/
def enableAllowed (program : Program κ ω) (password : List Char) : Bool :=
  (program.enablePassword.any fun pass => passMatches program pass password) ||
    program.enableCallback.any fun check => check password

def MAX_HISTORY : ℕ := 256

/-- `cli_add_history`; the entries that are not `NULL` come first. -/
def addHistory (history : List (List Char)) (cmd : List Char) : List (List Char) :=
  if history.length < MAX_HISTORY then
    match history.getLast? with
    | some last => if last.map tolower = cmd.map tolower then history else history ++ [cmd]
    | none => [cmd]
  else history.tail ++ [cmd]

/-- The history when a command line was entered. -/
def historyAfter (history : List (List Char)) (e : Entered) : List (List Char) :=
  if e.asks = false ∧ e.text.map tolower ≠ "history".toList then addHistory history e.text
  else history

/-- What follows the inner loop, when a line was entered. -/
def enterLine (program : Program κ ω) (s : Session κ ω) (e : Entered) :
    Session κ ω × List (Call κ) :=
  match s.cli.state with
  | .login =>
    if e.empty then (s, [])
    else ({ s with cli := { s.cli with state := .password }, username := e.text }, [])
  | .password =>
    if loginAllowed program s.username e.text then
      ({ s with cli := { s.cli.error [' '] with state := .normal } }, [])
    else
      ({ s with
         cli := { s.cli.error "\n\nAccess denied".toList with state := .login }
         username := [] }, [])
  | .enablePassword =>
    if enableAllowed program e.text then
      ({ s with
         cli := ({ s.cli with state := .enable } : CliDef κ ω).setPrivilege PRIVILEGE_PRIVILEGED },
        [])
    else
      ({ s with cli := { s.cli.error "\n\nAccess denied".toList with state := .normal } }, [])
  | _ =>
    if e.empty then (s, [])
    else
      let cli := { s.cli with history := historyAfter s.cli.history e }
      let result := runCommand program cli e.text
      if result.2.1 = CLI_QUIT then
        ({ s with cli := { result.1 with history := [] }, running := false }, result.2.2)
      else ({ s with cli := result.1 }, result.2.2)

/-- One event of a session, and the functions that are called. -/
def sessionStep (program : Program κ ω) (s : Session κ ω) (e : Event) :
    Session κ ω × List (Call κ) :=
  if s.running then
    match e with
    | .line e => enterLine program s e
    | .ctrlZ =>
      if s.cli.mode ≠ MODE_EXEC then
        ({ s with cli := s.cli.setConfigmode MODE_EXEC none }, [])
      else (s, [])
    | .closed => ({ s with cli := { s.cli with history := [] }, running := false }, [])
  else (s, [])

def sessionRun (program : Program κ ω) (s : Session κ ω) (events : List Event) : Session κ ω :=
  events.foldl (fun s e => (sessionStep program s e).1) s

/-- Nobody has to log in. -/
def Program.isOpen (program : Program κ ω) : Prop :=
  program.users = [] ∧ program.authCallback = none

instance (program : Program κ ω) : Decidable program.isOpen := by
  unfold Program.isOpen
  infer_instance

/-- The beginning of `cli_loop`. -/
def loopStart (program : Program κ ω) (cli : CliDef κ ω) : Session κ ω :=
  let cli := { cli with
    commands := buildShortest cli.privilege cli.mode cli.commands
    state := .login
    history := []
    client := (program.banner.map textLines).getD [] }
  let cli := (cli.setPrivilege PRIVILEGE_UNPRIVILEGED).setConfigmode MODE_EXEC none
  { cli := if program.isOpen then { cli with state := .normal } else cli
    username := []
    running := true }

/-! ## The tree in a session -/

theorem Kept.enterLine {P : CliDef κ ω → Prop} (h : Kept P)
    (hlocal : ∀ cli state history, P cli → P { cli with state := state, history := history })
    (program : Program κ ω) {s : Session κ ω} (hs : P s.cli) (e : Entered) :
    P (enterLine program s e).1.cli := by
  rw [Cli.enterLine]
  split
  · split
    · exact hs
    · exact hlocal s.cli _ s.cli.history hs
  · split
    · exact hlocal (s.cli.error [' ']) _ s.cli.history (h.write hs _)
    · exact hlocal (s.cli.error _) _ s.cli.history (h.write hs _)
  · split
    · exact h.privilege _ _ (hlocal s.cli _ s.cli.history hs)
    · exact hlocal (s.cli.error _) _ s.cli.history (h.write hs _)
  · split
    · exact hs
    · have hrun := h.runCommand program
        (hlocal s.cli s.cli.state (historyAfter s.cli.history e) hs) e.text
      dsimp only
      split
      · exact hlocal _ (Cli.runCommand program _ e.text).1.state [] hrun
      · exact hrun

theorem Kept.sessionStep {P : CliDef κ ω → Prop} (h : Kept P)
    (hlocal : ∀ cli state history, P cli → P { cli with state := state, history := history })
    (program : Program κ ω) {s : Session κ ω} (hs : P s.cli) (e : Event) :
    P (sessionStep program s e).1.cli := by
  cases e with
  | line e =>
      rw [Cli.sessionStep]
      split
      · exact h.enterLine hlocal program hs e
      · exact hs
  | ctrlZ =>
      rw [Cli.sessionStep]
      split
      · split
        · exact h.mode _ _ _ hs
        · exact hs
      · exact hs
  | closed =>
      rw [Cli.sessionStep]
      split
      · exact hlocal s.cli s.cli.state [] hs
      · exact hs

theorem fresh_loopStart (program : Program κ ω) (cli : CliDef κ ω) :
    (loopStart program cli).cli.Fresh := by
  rw [loopStart]
  have hbuilt := fresh_buildShortest cli.privilege cli.mode cli.commands
  have hstart := fresh_setConfigmode _ MODE_EXEC none
    (fresh_setPrivilege { cli with
      commands := buildShortest cli.privilege cli.mode cli.commands
      state := .login
      history := []
      client := (program.banner.map textLines).getD [] } PRIVILEGE_UNPRIVILEGED hbuilt)
  dsimp only
  split
  · exact hstart
  · exact hstart

theorem fresh_sessionRun (program : Program κ ω) (cli : CliDef κ ω) (events : List Event) :
    (sessionRun program (loopStart program cli) events).cli.Fresh := by
  induction events using List.reverseRecOn with
  | nil => exact fresh_loopStart program cli
  | append_singleton events e ih =>
      rw [sessionRun, List.foldl_append]
      exact kept_fresh.sessionStep (fun _ _ _ h => h) program ih e

/-! ## Login and privilege -/

/-- A name and its password are accepted. -/
def Admits (program : Program κ ω) (s : Session κ ω) (e : Event) : Prop :=
  s.running = true ∧ s.cli.state = .password ∧
    ∃ l, e = .line l ∧ loginAllowed program s.username l.text = true

/-- The password of `enable` is accepted. -/
def Enables (program : Program κ ω) (s : Session κ ω) (e : Event) : Prop :=
  s.running = true ∧ s.cli.state = .enablePassword ∧
    ∃ l, e = .line l ∧ enableAllowed program l.text = true

/-- One of the events met the condition, in the state in which it came. -/
def Happened (program : Program κ ω) (s₀ : Session κ ω) (events : List Event)
    (C : Session κ ω → Event → Prop) : Prop :=
  ∃ pre e post, events = pre ++ e :: post ∧ C (sessionRun program s₀ pre) e

theorem Happened.append {program : Program κ ω} {s₀ : Session κ ω} {events : List Event}
    {C : Session κ ω → Event → Prop} (h : Happened program s₀ events C) (more : List Event) :
    Happened program s₀ (events ++ more) C := by
  obtain ⟨pre, e, post, rfl, hC⟩ := h
  exact ⟨pre, e, post ++ more, by simp, hC⟩

theorem happened_last {program : Program κ ω} {s₀ : Session κ ω} {events : List Event} {e : Event}
    {C : Session κ ω → Event → Prop} (h : C (sessionRun program s₀ events) e) :
    Happened program s₀ (events ++ [e]) C :=
  ⟨events, e, [], rfl, h⟩

/-- Commands can be entered, or the password of `enable`. -/
def LoginState.inside : LoginState → Bool
  | .login => false
  | .password => false
  | _ => true

/-- A password is asked for before `enable` has an effect. -/
def Program.Guarded (program : Program κ ω) : Prop :=
  ¬ (program.enablePassword = none ∧ program.enableCallback = none)

/-- How a step gets inside, and how it raises the privilege. -/
structure Authorised (program : Program κ ω) (s : Session κ ω) (e : Event)
    (result : Session κ ω × List (Call κ)) : Prop where
  inside : result.1.cli.state.inside = true → s.cli.state.inside = true ∨ Admits program s e
  privileged : program.Guarded → 0 < result.1.cli.privilege →
    0 < s.cli.privilege ∨ Enables program s e
  calls : ∀ call ∈ result.2, s.cli.state.inside = true ∧ call.privilege = s.cli.privilege ∧
    call.command.privilege ≤ call.privilege

theorem authorised_same {program : Program κ ω} {s s' : Session κ ω} {e : Event}
    (hstate : s'.cli.state = s.cli.state) (hpriv : s'.cli.privilege = s.cli.privilege) :
    Authorised program s e (s', []) where
  inside := fun h => .inl (hstate ▸ h)
  privileged := fun _ h => .inl (hpriv ▸ h)
  calls := by simp

theorem enterLine_authorised {program : Program κ ω} (htame : program.Tame) {s : Session κ ω}
    (hrunning : s.running = true) (e : Entered) :
    Authorised program s (.line e) (enterLine program s e) := by
  -- the commands, in both states in which they can be entered
  have hcommand : s.cli.state.inside = true →
      Authorised program s (.line e)
        (if e.empty then (s, [])
        else
          let cli := { s.cli with history := historyAfter s.cli.history e }
          let result := runCommand program cli e.text
          if result.2.1 = CLI_QUIT then
            ({ s with cli := { result.1 with history := [] }, running := false }, result.2.2)
          else ({ s with cli := result.1 }, result.2.2)) := by
    intro hinside
    split
    · exact authorised_same rfl rfl
    · obtain ⟨⟨hpriv, hstate⟩, hcalls⟩ := runCommand_lawful htame
        { s.cli with history := historyAfter s.cli.history e } e.text
      have hprivileged : ∀ priv : ℤ, (priv = s.cli.privilege ∨ priv = PRIVILEGE_UNPRIVILEGED ∨
          (program.enablePassword = none ∧ program.enableCallback = none)) →
          program.Guarded → 0 < priv → 0 < s.cli.privilege ∨ Enables program s (.line e) := by
        rintro priv (rfl | rfl | hopen) hguarded hpos
        · exact .inl hpos
        · exact absurd hpos (lt_irrefl 0)
        · exact absurd hopen hguarded
      have hcall : ∀ call ∈ (runCommand program
          { s.cli with history := historyAfter s.cli.history e } e.text).2.2,
          s.cli.state.inside = true ∧ call.privilege = s.cli.privilege ∧
            call.command.privilege ≤ call.privilege :=
        fun call h => ⟨hinside, hcalls call h⟩
      dsimp only
      split
      · exact ⟨fun _ => .inl hinside, hprivileged _ hpriv, hcall⟩
      · exact ⟨fun _ => .inl hinside, hprivileged _ hpriv, hcall⟩
  cases hstate : s.cli.state with
  | login =>
      rw [enterLine, hstate]
      dsimp only
      split
      · exact authorised_same rfl rfl
      · exact ⟨fun h => absurd h (by simp [LoginState.inside]), fun _ h => .inl h, by simp⟩
  | password =>
      rw [enterLine, hstate]
      dsimp only
      split
      · next hallowed =>
          exact ⟨fun _ => .inr ⟨hrunning, hstate, e, rfl, hallowed⟩, fun _ h => .inl h, by simp⟩
      · exact ⟨fun h => absurd h (by simp [LoginState.inside]), fun _ h => .inl h, by simp⟩
  | enablePassword =>
      have hinside : s.cli.state.inside = true := by rw [hstate]; rfl
      rw [enterLine, hstate]
      dsimp only
      split
      · next hallowed =>
          exact ⟨fun _ => .inl hinside, fun _ _ => .inr ⟨hrunning, hstate, e, rfl, hallowed⟩,
            by simp⟩
      · exact ⟨fun _ => .inl hinside, fun _ h => .inl h, by simp⟩
  | normal =>
      rw [enterLine, hstate]
      exact hcommand (by rw [hstate]; rfl)
  | enable =>
      rw [enterLine, hstate]
      exact hcommand (by rw [hstate]; rfl)

theorem sessionStep_authorised {program : Program κ ω} (htame : program.Tame) (s : Session κ ω)
    (e : Event) : Authorised program s e (sessionStep program s e) := by
  cases e with
  | line e =>
      rw [sessionStep]
      split
      · next hrunning => exact enterLine_authorised htame hrunning e
      · exact authorised_same rfl rfl
  | ctrlZ =>
      rw [sessionStep]
      split
      · split
        · exact authorised_same (setConfigmode_state _ _ _) (setConfigmode_privilege _ _ _)
        · exact authorised_same rfl rfl
      · exact authorised_same rfl rfl
  | closed =>
      rw [sessionStep]
      split <;> exact authorised_same rfl rfl

theorem loopStart_state (program : Program κ ω) (cli : CliDef κ ω) :
    ((loopStart program cli).cli.state.inside = true → program.isOpen) ∧
      (loopStart program cli).cli.privilege = PRIVILEGE_UNPRIVILEGED := by
  rw [loopStart]
  dsimp only
  split
  · next hopen =>
      refine ⟨fun _ => hopen, ?_⟩
      change (CliDef.setConfigmode _ MODE_EXEC none).privilege = _
      rw [setConfigmode_privilege, setPrivilege_privilege]
  · refine ⟨fun h => ?_, ?_⟩
    · rw [setConfigmode_state, setPrivilege_state] at h
      simp [LoginState.inside] at h
    · rw [setConfigmode_privilege, setPrivilege_privilege]

/-- After any events: who is inside has logged in, and who is privileged has given
the password of `enable`. -/
theorem sessionRun_authorised {program : Program κ ω} (htame : program.Tame) (cli : CliDef κ ω)
    (events : List Event) :
    ((sessionRun program (loopStart program cli) events).cli.state.inside = true →
      program.isOpen ∨ Happened program (loopStart program cli) events (Admits program)) ∧
    (program.Guarded → 0 < (sessionRun program (loopStart program cli) events).cli.privilege →
      Happened program (loopStart program cli) events (Enables program)) := by
  induction events using List.reverseRecOn with
  | nil =>
      obtain ⟨hstate, hpriv⟩ := loopStart_state program cli
      refine ⟨fun h => .inl (hstate h), fun _ h => ?_⟩
      exact absurd (hpriv ▸ h) (lt_irrefl 0)
  | append_singleton events e ih =>
      obtain ⟨hinside, hprivileged⟩ := ih
      have hstep := sessionStep_authorised htame
        (sessionRun program (loopStart program cli) events) e
      have hrun : sessionRun program (loopStart program cli) (events ++ [e]) =
          (sessionStep program (sessionRun program (loopStart program cli) events) e).1 := by
        rw [sessionRun, List.foldl_append]
        rfl
      rw [hrun]
      constructor
      · intro h
        rcases hstep.inside h with h | h
        · exact (hinside h).imp_right fun hadmits => hadmits.append [e]
        · exact .inr (happened_last h)
      · intro hguarded h
        rcases hstep.privileged hguarded h with h | h
        · exact (hprivileged hguarded h).append [e]
        · exact happened_last h

/-- Whatever is entered, a function is called only after somebody has logged in,
and one that needs a privilege only after the password of `enable` was given. -/
theorem calls_authorised {program : Program κ ω} (htame : program.Tame) (cli : CliDef κ ω)
    (events : List Event) (e : Event) {call : Call κ}
    (hcall : call ∈ (sessionStep program
      (sessionRun program (loopStart program cli) events) e).2) :
    (program.isOpen ∨ Happened program (loopStart program cli) events (Admits program)) ∧
      (program.Guarded → PRIVILEGE_UNPRIVILEGED < call.command.privilege →
        Happened program (loopStart program cli) events (Enables program)) := by
  obtain ⟨hinside, hpriv, hallowed⟩ := (sessionStep_authorised htame _ e).calls call hcall
  obtain ⟨hlogin, hprivileged⟩ := sessionRun_authorised htame cli events
  refine ⟨hlogin hinside, fun hguarded hneeds => hprivileged hguarded ?_⟩
  rw [← hpriv]
  exact lt_of_lt_of_le hneeds hallowed

/-- A program with one function, which prints two texts, one of them with two lines. -/
def vaultProgram : Program Unit Unit where
  regex := ⟨fun _ _ _ => false, fun _ _ _ _ => false⟩
  wild := false
  users := [("bob".toList, "pw".toList)]
  authCallback := none
  enablePassword := some "root".toList
  enableCallback := none
  crypt := fun try_ _ => try_
  banner := none
  call := fun _ _ _ _ => ((), [.print "a\nab".toList, .print "b".toList], CLI_OK)

def vaultCommands : List (Command Unit) :=
  [⟨"quit".toList, some .quit, 0, [], PRIVILEGE_UNPRIVILEGED, MODE_ANY, []⟩,
   ⟨"enable".toList, some .enable, 0, [], PRIVILEGE_UNPRIVILEGED, MODE_EXEC, []⟩,
   ⟨"show".toList, none, 0, [], PRIVILEGE_UNPRIVILEGED, MODE_ANY,
     [⟨"session".toList, some .history, 0, [], PRIVILEGE_UNPRIVILEGED, MODE_ANY, []⟩,
      ⟨"secret".toList, some (.program ()), 0, [], PRIVILEGE_PRIVILEGED, MODE_ANY, []⟩]⟩]

def vaultCli : CliDef Unit Unit where
  commands := vaultCommands
  privilege := PRIVILEGE_UNPRIVILEGED
  mode := MODE_EXEC
  state := .login
  promptchar := []
  modestring := none
  filters := []
  history := []
  client := []
  world := ()

def vaultEvents : List Event :=
  ["bob", "pw", "en", "root"].map fun text => .line ⟨false, false, text.toList⟩

theorem vaultProgram_tame : vaultProgram.Tame := by
  intro k cli name args a ha priv
  simp only [vaultProgram, List.mem_cons, List.not_mem_nil, or_false] at ha
  rcases ha with rfl | rfl <;> simp

/-- The secret is shown to bob, who knows both passwords. -/
theorem calls_authorised_vault :
    ∃ call ∈ (sessionStep vaultProgram
        (sessionRun vaultProgram (loopStart vaultProgram vaultCli) vaultEvents)
        (.line ⟨false, false, "sh sec".toList⟩)).2,
      call.callback = .program () ∧
        Happened vaultProgram (loopStart vaultProgram vaultCli) vaultEvents
          (Enables vaultProgram) := by
  have hcalls : ((sessionStep vaultProgram
      (sessionRun vaultProgram (loopStart vaultProgram vaultCli) vaultEvents)
      (.line ⟨false, false, "sh sec".toList⟩)).2.map fun call =>
        (call.callback, call.command.privilege)) = [(.program (), PRIVILEGE_PRIVILEGED)] := by
    decide +kernel
  obtain ⟨call, hcall, heq⟩ := List.map_eq_singleton_iff.mp hcalls
  rw [Prod.mk.injEq] at heq
  have hmem : call ∈ (sessionStep vaultProgram
      (sessionRun vaultProgram (loopStart vaultProgram vaultCli) vaultEvents)
      (.line ⟨false, false, "sh sec".toList⟩)).2 := hcall ▸ List.mem_singleton_self call
  refine ⟨call, hmem, heq.1, ?_⟩
  refine (calls_authorised vaultProgram_tame vaultCli vaultEvents _ hmem).2 ?_ ?_
  · exact fun h => absurd h.1 (by simp [vaultProgram])
  · rw [heq.2]
    decide

/-! ## The commands in a session -/

theorem fresh_siblingsAt {privilege mode : ℤ} {commands : List (Command κ)}
    (h : Fresh privilege mode commands) {path : List ℕ}
    (hvisible : ∀ c ∈ along commands path, c.visible privilege mode = true) :
    Fresh privilege mode (siblingsAt commands path) := by
  induction path generalizing commands with
  | nil => exact h
  | cons i path ih =>
      rw [siblingsAt]
      rw [along] at hvisible
      cases hc : commands[i]? with
      | none => rfl
      | some c =>
          rw [hc] at hvisible
          obtain ⟨hv, hbelow⟩ := List.forall_mem_cons.mp hvisible
          exact ih (h.children hc hv) hbelow

/-- In every session, below commands that can be used, a word finds the command that
it selects, whatever the privilege and the mode have been before. -/
theorem session_selects (program : Program κ ω) (cli : CliDef κ ω) (events : List Event)
    {s : Session κ ω} (hs : s = sessionRun program (loopStart program cli) events)
    {path : List ℕ}
    (hvisible : ∀ c ∈ along s.cli.commands path, c.visible s.cli.privilege s.cli.mode = true)
    (hnames : NamesOk s.cli.privilege s.cli.mode (siblingsAt s.cli.commands path)) {w : Word}
    (hw : '\x00' ∉ w) (i : ℕ) :
    findLoop s.cli.privilege s.cli.mode w (siblingsAt s.cli.commands path) 0 none none =
        some (i, false) ↔
      ∃ c, Selects s.cli.privilege s.cli.mode (siblingsAt s.cli.commands path) w i c := by
  have hfresh : s.cli.Fresh := hs ▸ fresh_sessionRun program cli events
  exact findLoop_eq_some_iff (fresh_siblingsAt hfresh hvisible) hnames hw i

/-- At the top, `e` stands for `enable`, and `sh` for `show`. -/
theorem session_selects_vault :
    ∃ c, Selects PRIVILEGE_UNPRIVILEGED MODE_EXEC
      (siblingsAt (sessionRun vaultProgram (loopStart vaultProgram vaultCli) []).cli.commands [])
      ['e'] 1 c :=
  (session_selects vaultProgram vaultCli [] rfl (by simp [along])
    (namesOk_of_nodup _ _ (by decide +kernel) (by decide +kernel)) (by decide) 1).mp
    (by decide +kernel)

/-- In every session a line that spells a path calls the last command of it once, and
what the function prints goes through the filters of the line. -/
theorem session_output {program : Program κ ω} (hprogram : program.TakesArguments)
    (cli : CliDef κ ω) (events : List Event) {s : Session κ ω}
    (hs : s = sessionRun program (loopStart program cli) events) (hrunning : s.running = true)
    (hstate : s.cli.state = .normal ∨ s.cli.state = .enable) (t : TypedLine) (asks : Bool)
    {path : List ℕ} {c : Command κ} {k : κ} {filters : List Filter}
    (hspells : Spells program.wild s.cli.privilege s.cli.mode s.cli.commands t.ws path c)
    (hcallback : c.callback = some (.program k)) (hlast : c.children = [] ∨ t.args = [])
    (hsetup : setupFilters program.regex program.wild (barSegments t.rest) [] = .ready filters)
    (hclean : s.cli.filters = [] ∨ t.rest ≠ []) {world : ω} (texts : List (List Char)) {rc : ℤ}
    (hcall : program.call k
      (t.start { s.cli with history := historyAfter s.cli.history ⟨false, asks, t.text⟩ } filters)
      (commandName s.cli.commands path) t.args = (world, texts.map Action.print, rc)) :
    let result := sessionStep program s (.line ⟨false, asks, t.text⟩)
    let out := chosenAll program.regex filters (texts.flatMap textLines)
    result.1.cli.client = s.cli.client ++ out.1 ++ out.2 ∧ result.1.cli.filters = [] ∧
      result.2 = [⟨c, .program k, commandName s.cli.commands path, t.args, s.cli.privilege,
        s.cli.mode⟩] := by
  intro result out
  let e : Entered := ⟨false, asks, t.text⟩
  let cli' : CliDef κ ω := { s.cli with history := historyAfter s.cli.history e }
  have hfresh : cli'.Fresh := by
    have h : s.cli.Fresh := hs ▸ fresh_sessionRun program cli events
    exact h
  have hrun := runCommand_typedLine hprogram hfresh t hspells hcallback hlast hsetup
  -- the filters with which the function is called
  have hfilters : (t.start cli' filters).filters = filters := by
    rw [TypedLine.start]
    split
    · next hrest =>
        have hready : FilterSetup.ready [] = FilterSetup.ready filters := by
          rw [← hsetup, hrest]
          rfl
        cases hready
        exact hclean.resolve_right fun h => h hrest
    · rfl
  have hclient : (t.start cli' filters).client = s.cli.client := by
    rw [TypedLine.start]
    split <;> rfl
  have hinitial : ∀ f ∈ filters, f.Initial := by
    have h : ∀ f ∈ (setupFilters program.regex program.wild (barSegments t.rest) []).filters,
        f.Initial := setupFilters_initial program.regex program.wild (barSegments t.rest) (by simp)
    rw [hsetup] at h
    exact h
  obtain ⟨hlines, htotals⟩ :=
    feedAll_eq_chosenAll program.regex hinitial (texts.flatMap textLines)
  have hcallback' : runCallback program (t.start cli' filters) (commandName s.cli.commands path)
      t.args (.program k) =
      ({ t.start cli' filters with
        world := world
        filters := (feedAll (Filter.step program.regex) filters (texts.flatMap textLines)).1
        client := s.cli.client ++
          (feedAll (Filter.step program.regex) filters (texts.flatMap textLines)).2 }, rc) := by
    rw [runCallback, hcall]
    simp only [acts_print, hfilters, hclient]
  have hresult : result.1.cli.client = (runCommand program cli' t.text).1.client ∧
      result.1.cli.filters = (runCommand program cli' t.text).1.filters ∧
      result.2 = (runCommand program cli' t.text).2.2 := by
    have hstep : result = enterLine program s e := by
      simp only [result, e, sessionStep, hrunning, if_true]
    rw [hstep]
    rcases hstate with hstate | hstate <;>
    · rw [enterLine, hstate]
      simp only [e, Bool.false_eq_true, if_false]
      split <;> exact ⟨rfl, rfl, rfl⟩
  rw [hresult.1, hresult.2.1, hresult.2.2, hrun]
  change (runCallback program (t.start cli' filters) (commandName s.cli.commands path)
    t.args (.program k)).1.dropFilters.client = _ ∧ _ ∧ _
  rw [hcallback']
  refine ⟨?_, rfl, rfl⟩
  simp only [CliDef.dropFilters, CliDef.write, hlines, htotals, out]

/-- `sh sec|inc b`. -/
def vaultLine : TypedLine where
  lead := []
  items := [(.bare "sh".toList, [' ']), (.bare "sec".toList, []), (.bar, []),
    (.bare "inc".toList, [' ']), (.bare ['b'], [])]
  ws := ["sh".toList, "sec".toList]
  args := []
  rest := [['|'], "inc".toList, ['b']]
  blank := by simp
  spaced := by
    refine ⟨⟨by decide, by decide⟩, by decide, by decide, ⟨by decide, by decide⟩, by decide,
      by decide, trivial, by decide, by decide, ⟨by decide, by decide⟩, by decide, by decide,
      ⟨by decide, by decide⟩, by decide, by decide, trivial⟩
  room := by decide
  words_eq := by decide
  ne_nil := by decide
  front := by decide
  bars := by decide

/-- The lines `ab` and `b` are left of what the function prints. -/
theorem session_output_vault :
    (sessionStep vaultProgram
        (sessionRun vaultProgram (loopStart vaultProgram vaultCli) vaultEvents)
        (.line ⟨false, false, vaultLine.text⟩)).1.cli.client =
      (sessionRun vaultProgram (loopStart vaultProgram vaultCli) vaultEvents).cli.client ++
        ["ab".toList, ['b']] := by
  let s := sessionRun vaultProgram (loopStart vaultProgram vaultCli) vaultEvents
  have hfresh : Fresh s.cli.privilege s.cli.mode s.cli.commands :=
    fresh_sessionRun vaultProgram vaultCli vaultEvents
  have hnames : NamesOk s.cli.privilege s.cli.mode s.cli.commands :=
    namesOk_of_nodup _ _ (by decide +kernel) (by decide +kernel)
  obtain ⟨c, hc⟩ := (findLoop_eq_some_iff (w := "sh".toList) hfresh hnames (by decide) 2).mp
    (by decide +kernel)
  have hchildren : c.children = siblingsAt s.cli.commands [2] :=
    (siblingsAt_concat s.cli.commands [] 2 hc.at_position).symm
  have hnames' : NamesOk s.cli.privilege s.cli.mode c.children := by
    rw [hchildren]
    exact namesOk_of_nodup _ _ (by decide +kernel) (by decide +kernel)
  obtain ⟨d, hd⟩ := (findLoop_eq_some_iff (w := "sec".toList)
    (hfresh.children hc.at_position hc.visible) hnames' (by decide) 1).mp
    (by rw [hchildren]; decide +kernel)
  have hget : (siblingsAt s.cli.commands [2])[1]? = some d := hchildren ▸ hd.at_position
  have hfields : ((siblingsAt s.cli.commands [2])[1]?.map fun d =>
      (d.callback, d.children.isEmpty)) = some (some (.program ()), true) := by
    decide +kernel
  rw [hget, Option.map_some, Option.some.injEq, Prod.mk.injEq] at hfields
  have hspells : Spells false s.cli.privilege s.cli.mode s.cli.commands vaultLine.ws [2, 1] d :=
    .step hnames (by decide) (by decide) hc (.last hnames' (by decide) (by decide) hd)
  have hargs : vaultProgram.TakesArguments := by
    intro k cli name args
    change CLI_OK ≠ CLI_ERROR_ARG
    decide
  obtain ⟨hclient, -, -⟩ := session_output hargs vaultCli vaultEvents rfl (by decide +kernel)
    (by decide +kernel) vaultLine false hspells hfields.1
    (.inl (List.isEmpty_iff.mp hfields.2)) rfl (.inr (by decide))
    ["a\nab".toList, "b".toList] rfl
  rw [hclient, List.append_assoc]
  rfl

end EceLib.Cli
