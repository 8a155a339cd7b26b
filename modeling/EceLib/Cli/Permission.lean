import EceLib.Cli.CommandRun

/-!
# Whom a command line obeys

A command line calls only functions of commands for which the privilege of the
session is enough, also where a function refuses its arguments and the command
above is tried.  The privilege rises by `enable` alone, and by it only where no
password is asked for.
-/

namespace EceLib.Cli

variable {κ ω : Type}

/-! ## The privilege and the state -/

/-- The functions of the program leave the privilege alone. -/
def Program.Tame (program : Program κ ω) : Prop :=
  ∀ k cli name args, ∀ a ∈ (program.call k cli name args).2.1, ∀ priv, a ≠ .setPrivilege priv

/-- What a command can do to the privilege and to the state of the session. -/
structure Governed (program : Program κ ω) (cli cli' : CliDef κ ω) : Prop where
  privilege : cli'.privilege = cli.privilege ∨ cli'.privilege = PRIVILEGE_UNPRIVILEGED ∨
    (program.enablePassword = none ∧ program.enableCallback = none)
  state : cli'.state = cli.state ∨ cli'.state = .enablePassword

theorem setConfigmode_privilege (cli : CliDef κ ω) (mode : ℤ) (desc : Option (List Char)) :
    (cli.setConfigmode mode desc).privilege = cli.privilege := by
  rw [CliDef.setConfigmode]
  split <;> rfl

theorem setConfigmode_state (cli : CliDef κ ω) (mode : ℤ) (desc : Option (List Char)) :
    (cli.setConfigmode mode desc).state = cli.state := by
  rw [CliDef.setConfigmode]
  split <;> rfl

theorem setPrivilege_privilege (cli : CliDef κ ω) (priv : ℤ) :
    (cli.setPrivilege priv).privilege = priv := by
  rw [CliDef.setPrivilege]
  split
  · rfl
  · next h => exact (not_not.mp h).symm

theorem setPrivilege_state (cli : CliDef κ ω) (priv : ℤ) :
    (cli.setPrivilege priv).state = cli.state := by
  rw [CliDef.setPrivilege]
  split <;> rfl

theorem acts_tame (re : Regex) {actions : List Action}
    (h : ∀ a ∈ actions, ∀ priv, a ≠ .setPrivilege priv) (cli : CliDef κ ω) :
    (actions.foldl (CliDef.act re) cli).privilege = cli.privilege ∧
      (actions.foldl (CliDef.act re) cli).state = cli.state := by
  induction actions generalizing cli with
  | nil => exact ⟨rfl, rfl⟩
  | cons a actions ih =>
      obtain ⟨ha, hactions⟩ := List.forall_mem_cons.mp h
      have hstep : (cli.act re a).privilege = cli.privilege ∧ (cli.act re a).state = cli.state := by
        cases a with
        | print text => exact ⟨rfl, rfl⟩
        | error text => exact ⟨rfl, rfl⟩
        | setPrivilege priv => exact absurd rfl (ha priv)
        | setConfigmode mode desc =>
            exact ⟨setConfigmode_privilege cli mode desc, setConfigmode_state cli mode desc⟩
      obtain ⟨hpriv, hstate⟩ := ih hactions (cli.act re a)
      exact ⟨hpriv.trans hstep.1, hstate.trans hstep.2⟩

/-- A function that refuses its arguments has changed neither. -/
theorem runCallback_governed {program : Program κ ω} (htame : program.Tame) (cli : CliDef κ ω)
    (name : List Char) (args : List Word) (callback : Callback κ) :
    Governed program cli (runCallback program cli name args callback).1 ∧
      ((runCallback program cli name args callback).2 = CLI_ERROR_ARG →
        (runCallback program cli name args callback).1.privilege = cli.privilege) := by
  have hsame : ∀ cli' : CliDef κ ω, cli'.privilege = cli.privilege → cli'.state = cli.state →
      Governed program cli cli' := fun _ hp hs => ⟨.inl hp, .inl hs⟩
  have hlow : ∀ mode desc, Governed program cli
      ((cli.setPrivilege PRIVILEGE_UNPRIVILEGED).setConfigmode mode desc) := by
    intro mode desc
    refine ⟨.inr (.inl ?_), .inl ?_⟩
    · rw [setConfigmode_privilege, setPrivilege_privilege]
    · rw [setConfigmode_state, setPrivilege_state]
  have hok : CLI_OK ≠ CLI_ERROR_ARG := by decide
  have hquit : CLI_QUIT ≠ CLI_ERROR_ARG := by decide
  cases callback with
  | help => exact ⟨hsame _ rfl rfl, fun _ => rfl⟩
  | history => exact ⟨hsame _ rfl rfl, fun _ => rfl⟩
  | quit => exact ⟨hlow _ _, fun h => absurd h hquit⟩
  | exit =>
      rw [runCallback]
      split
      · exact ⟨hlow _ _, fun h => absurd h hquit⟩
      · exact ⟨hsame _ (setConfigmode_privilege _ _ _) (setConfigmode_state _ _ _),
          fun h => absurd h hok⟩
  | enable =>
      rw [runCallback]
      split
      · exact ⟨hsame _ rfl rfl, fun _ => rfl⟩
      · split
        · next hopen =>
            refine ⟨⟨.inr (.inr ?_), .inl ?_⟩, fun h => absurd h hok⟩
            · exact ⟨Option.isNone_iff_eq_none.mp hopen.1, Option.isNone_iff_eq_none.mp hopen.2⟩
            · rw [setConfigmode_state, setPrivilege_state]
        · exact ⟨⟨.inl rfl, .inr rfl⟩, fun _ => rfl⟩
  | disable => exact ⟨hlow _ _, fun h => absurd h hok⟩
  | configureTerminal =>
      exact ⟨hsame _ (setConfigmode_privilege _ _ _) (setConfigmode_state _ _ _),
        fun h => absurd h hok⟩
  | program k =>
      obtain ⟨hpriv, hstate⟩ := acts_tame program.regex (htame k cli name args)
        { cli with world := (program.call k cli name args).1 }
      exact ⟨hsame _ hpriv hstate, fun _ => hpriv⟩

/-! ## The calls of a line -/

/-- What is known of a command line: what it does to the session, and that every
function it calls belongs to a command for which the privilege is enough. -/
structure Lawful (program : Program κ ω) (cli : CliDef κ ω)
    (result : CliDef κ ω × ℤ × List (Call κ)) : Prop where
  governed : Governed program cli result.1
  refused : result.2.1 = CLI_ERROR_ARG → result.1.privilege = cli.privilege
  calls : ∀ call ∈ result.2.2, call.privilege = cli.privilege ∧
    call.command.privilege ≤ call.privilege

theorem lawful_silent {program : Program κ ω} {cli cli' : CliDef κ ω} {rc : ℤ}
    (hpriv : cli'.privilege = cli.privilege) (hstate : cli'.state = cli.state) :
    Lawful program cli (cli', rc, []) where
  governed := ⟨.inl hpriv, .inl hstate⟩
  refused := fun _ => hpriv
  calls := by simp

theorem correctChecks_lawful {program : Program κ ω} (htame : program.Tame)
    (segments : List (List Word)) (cli : CliDef κ ω) (path : List ℕ) {c : Command κ}
    (hc : c.privilege ≤ cli.privilege) (callback : Callback κ) (args : List Word) :
    Lawful program cli (correctChecks program segments cli path c callback args) := by
  rw [correctChecks]
  split
  · exact lawful_silent rfl rfl
  · exact lawful_silent rfl rfl
  · next filters _ =>
      let filters := if segments = [] then cli.filters else filters
      obtain ⟨⟨hpriv, hstate⟩, hrefused⟩ := runCallback_governed htame
        { cli with filters := filters } (commandName cli.commands path) args callback
      refine ⟨⟨hpriv, hstate⟩, hrefused, fun call hcall => ?_⟩
      rw [List.mem_singleton.mp hcall]
      exact ⟨rfl, hc⟩

/-- What is found by the loop is one of the commands it looks at, or was remembered before. -/
theorem findLoop_found {privilege mode : ℤ} {w : Word} {P : ℕ → Prop}
    {commands : List (Command κ)} {i : ℕ} {againConfig againAny : Option ℕ}
    (hconfig : ∀ j ∈ againConfig, P j) (hany : ∀ j ∈ againAny, P j)
    (hcommands : ∀ k c, commands[k]? = some c → c.privilege ≤ privilege → P (i + k))
    {found : ℕ × Bool}
    (h : findLoop privilege mode w commands i againConfig againAny = some found) :
    P found.1 := by
  induction commands generalizing i againConfig againAny with
  | nil =>
      rw [findLoop.eq_def] at h
      cases againConfig with
      | some j =>
          cases h
          exact hconfig j rfl
      | none =>
          obtain ⟨j, hj, hfound⟩ := Option.map_eq_some_iff.mp h
          rw [← hfound]
          exact hany j hj
  | cons c commands ih =>
      have hrest : ∀ k d, commands[k]? = some d → d.privilege ≤ privilege → P (i + 1 + k) := by
        intro k d hd hpriv
        rw [Nat.add_assoc, Nat.add_comm 1]
        exact hcommands (k + 1) d hd hpriv
      rw [findLoop] at h
      split at h
      · exact ih hconfig hany hrest h
      · next hpriv =>
          have hhere : ∀ j ∈ some i, P j := by
            intro j hj
            cases hj
            exact hcommands 0 c rfl (not_lt.mp hpriv)
          split at h
          · exact ih hconfig hany hrest h
          · split at h
            · cases h
              exact hhere i rfl
            · split at h
              · exact ih hhere hany hrest h
              · split at h
                · exact ih hconfig hhere hrest h
                · exact ih hconfig hany hrest h

/-- A new computation of the lengths leaves the entries along every path. -/
theorem siblingsAt_buildShortest (privilege mode : ℤ) (commands : List (Command κ))
    (path : List ℕ) :
    (siblingsAt (buildShortest privilege mode commands) path).map Command.entry =
      (siblingsAt commands path).map Command.entry := by
  induction path generalizing commands with
  | nil => exact buildLoop_entries privilege mode commands 0 commands
  | cons i path ih =>
      have hget := buildLoop_getElem? privilege mode commands 0 i commands
      rw [siblingsAt, siblingsAt, buildShortest, hget]
      cases commands[i]? with
      | none => rfl
      | some c =>
          simp only [Option.map_some]
          rw [buildCommand_eq]
          split
          · exact ih c.children
          · rfl

theorem siblingsAt_dropOut (cli : CliDef κ ω) (toConfig : Bool) (path : List ℕ) :
    (siblingsAt (cli.dropOut toConfig).commands path).map Command.entry =
      (siblingsAt cli.commands path).map Command.entry := by
  cases toConfig with
  | false => rfl
  | true =>
      change (siblingsAt (cli.setConfigmode MODE_CONFIG none).commands path).map _ = _
      rw [CliDef.setConfigmode]
      split
      · exact siblingsAt_buildShortest cli.privilege MODE_CONFIG cli.commands path
      · rfl

theorem dropOut_privilege (cli : CliDef κ ω) (toConfig : Bool) :
    (cli.dropOut toConfig).privilege = cli.privilege := by
  cases toConfig with
  | false => rfl
  | true => exact setConfigmode_privilege cli MODE_CONFIG none

theorem dropOut_state (cli : CliDef κ ω) (toConfig : Bool) :
    (cli.dropOut toConfig).state = cli.state := by
  cases toConfig with
  | false => rfl
  | true => exact setConfigmode_state cli MODE_CONFIG none

/-- One command line after another, the second only if the first refuses. -/
theorem Lawful.trans {program : Program κ ω} {cli cli' : CliDef κ ω}
    {result : CliDef κ ω × ℤ × List (Call κ)} (hpriv : cli'.privilege = cli.privilege)
    (hstate : cli'.state = cli.state ∨ cli'.state = .enablePassword)
    (h : Lawful program cli' result) : Lawful program cli result where
  governed := by
    obtain ⟨hp, hs⟩ := h.governed
    refine ⟨hpriv ▸ hp, ?_⟩
    rcases hs with hs | hs
    · rw [hs]
      exact hstate
    · exact .inr hs
  refused := fun hrc => (h.refused hrc).trans hpriv
  calls := fun call hcall => hpriv ▸ h.calls call hcall

theorem findCommand_lawful {program : Program κ ω} (htame : program.Tame)
    (segments : List (List Word)) (words : List Word) (cli : CliDef κ ω) (path : List ℕ) :
    Lawful program cli (findCommand program segments words cli path) := by
  induction words generalizing cli path with
  | nil => exact lawful_silent rfl rfl
  | cons w args ih =>
      rw [findCommand]
      split
      · exact lawful_silent rfl rfl
      · split
        · split <;> exact lawful_silent rfl rfl
        · next i toConfig hfound =>
            have hpriv := dropOut_privilege cli toConfig
            have hstate := dropOut_state cli toConfig
            dsimp only
            split
            · exact lawful_silent hpriv hstate
            · next c hc =>
                -- the command at the position, before and after the change of the mode
                have hentries := siblingsAt_dropOut cli toConfig path
                have hallowed : c.privilege ≤ cli.privilege := by
                  refine findLoop_found (P := fun j => ∀ d,
                    (siblingsAt (cli.dropOut toConfig).commands path)[j]? = some d →
                      d.privilege ≤ cli.privilege) (by simp) (by simp) ?_ hfound c hc
                  intro k d hd hle e he
                  rw [Nat.zero_add] at he
                  have hsame : some e.entry = some d.entry := by
                    rw [← Option.map_some, ← he, ← List.getElem?_map, hentries,
                      List.getElem?_map, hd, Option.map_some]
                  have hpe : e.privilege = d.privilege :=
                    congrArg (fun x => x.2.1) (Option.some.inj hsame)
                  exact hpe ▸ hle
                have hrun : ∀ cli' callback, cli'.privilege = cli.privilege →
                    (cli'.state = cli.state ∨ cli'.state = .enablePassword) →
                    Lawful program cli
                      (correctChecks program segments cli' (path ++ [i]) c callback args) := by
                  intro cli' callback hp hs
                  exact (correctChecks_lawful htame segments cli' _ (hp ▸ hallowed) callback
                    args).trans hp hs
                split
                · split
                  · exact lawful_silent hpriv hstate
                  · exact hrun _ _ hpriv (.inl hstate)
                · split
                  · split
                    · exact lawful_silent hpriv hstate
                    · exact hrun _ _ hpriv (.inl hstate)
                  · have hbelow := (ih (cli.dropOut toConfig) (path ++ [i])).trans hpriv
                      (.inl hstate)
                    split
                    · next hrc =>
                        have hp := hbelow.refused hrc
                        split
                        · next callback _ =>
                            have habove := hrun _ callback hp hbelow.governed.state
                            refine ⟨habove.governed, habove.refused, fun call hcall => ?_⟩
                            rcases List.mem_append.mp hcall with hcall | hcall
                            · exact hbelow.calls call hcall
                            · exact habove.calls call hcall
                        · exact ⟨⟨hbelow.governed.privilege, hbelow.governed.state⟩, fun _ => hp,
                            hbelow.calls⟩
                    · exact hbelow

theorem runCommand_lawful {program : Program κ ω} (htame : program.Tame) (cli : CliDef κ ω)
    (line : List Char) :
    Governed program cli (runCommand program cli line).1 ∧
      ∀ call ∈ (runCommand program cli line).2.2,
        call.privilege = cli.privilege ∧ call.command.privilege ≤ call.privilege := by
  rw [runCommand]
  split
  · exact ⟨⟨.inl rfl, .inl rfl⟩, by simp⟩
  · next c s _ =>
      let words := parseLine (c :: s) CLI_MAX_LINE_WORDS
      have h := findCommand_lawful htame (filterWords words) (commandWords words) cli []
      exact ⟨h.governed, h.calls⟩

end EceLib.Cli
