import EceLib.Cli.Abbreviations
import Mathlib.Data.List.DropRight

/-!
# What a command line does to the session

The rule for invariants: what no primitive operation on the session breaks, no
command line breaks.  The tree stays fresh by it.  A line whose words select,
one after the other, the commands of a path calls the last of them, and its
output goes through the filters.
-/

namespace EceLib.Cli

open Support
open Json (tolower)

variable {κ ω : Type}

/-! ## The rule for invariants -/

/-- The operations that the library and the program's functions perform on the
session keep `P`. -/
structure Kept (P : CliDef κ ω → Prop) : Prop where
  output : ∀ cli filters client, P cli → P { cli with filters := filters, client := client }
  world : ∀ cli world, P cli → P { cli with world := world }
  asksPassword : ∀ cli, P cli → P { cli with state := .enablePassword }
  privilege : ∀ cli priv, P cli → P (cli.setPrivilege priv)
  mode : ∀ cli mode desc, P cli → P (cli.setConfigmode mode desc)

section Kept

variable {P : CliDef κ ω → Prop} {cli : CliDef κ ω}

theorem Kept.write (h : Kept P) (hcli : P cli) (lines : List (List Char)) : P (cli.write lines) :=
  h.output cli cli.filters (cli.client ++ lines) hcli

theorem Kept.act (h : Kept P) (re : Regex) (hcli : P cli) (a : Action) : P (cli.act re a) := by
  cases a with
  | print text => exact h.output cli _ _ hcli
  | error text => exact h.write hcli _
  | setPrivilege priv => exact h.privilege cli priv hcli
  | setConfigmode mode desc => exact h.mode cli mode desc hcli

theorem Kept.acts (h : Kept P) (re : Regex) (hcli : P cli) (actions : List Action) :
    P (actions.foldl (CliDef.act re) cli) := by
  induction actions generalizing cli with
  | nil => exact hcli
  | cons a actions ih => exact ih (h.act re hcli a)

theorem Kept.dropFilters (h : Kept P) (hcli : P cli) : P cli.dropFilters :=
  h.output cli [] (cli.client ++ cli.filters.flatMap Filter.finish) hcli

theorem Kept.runCallback (h : Kept P) (program : Program κ ω) (hcli : P cli) (name : List Char)
    (args : List Word) (callback : Callback κ) :
    P (runCallback program cli name args callback).1 := by
  have hquit : P (cliIntQuit cli).1 := h.mode _ _ _ (h.privilege cli _ hcli)
  cases callback with
  | help => exact h.write hcli _
  | history => exact h.write hcli _
  | quit => exact hquit
  | exit =>
      rw [Cli.runCallback]
      split
      · exact hquit
      · exact h.mode cli _ _ hcli
  | enable =>
      rw [Cli.runCallback]
      split
      · exact hcli
      · split
        · exact h.mode _ _ _ (h.privilege cli _ hcli)
        · exact h.asksPassword cli hcli
  | disable => exact h.mode _ _ _ (h.privilege cli _ hcli)
  | configureTerminal => exact h.mode cli _ _ hcli
  | program k => exact h.acts program.regex (h.world cli _ hcli) _

theorem Kept.correctChecks (h : Kept P) (program : Program κ ω) (segments : List (List Word))
    (hcli : P cli) (path : List ℕ) (c : Command κ) (callback : Callback κ) (args : List Word) :
    P (correctChecks program segments cli path c callback args).1 := by
  rw [Cli.correctChecks]
  split
  · exact h.output cli _ _ hcli
  · exact h.output cli _ _ hcli
  · exact h.dropFilters (h.runCallback program (h.output cli _ _ hcli) _ _ _)

theorem Kept.findCommand (h : Kept P) (program : Program κ ω) (segments : List (List Word))
    (words : List Word) (hcli : P cli) (path : List ℕ) :
    P (findCommand program segments words cli path).1 := by
  induction words generalizing cli path with
  | nil => exact hcli
  | cons w args ih =>
      rw [Cli.findCommand]
      split
      · exact h.write hcli _
      · split
        · split
          · exact h.write hcli _
          · exact hcli
        · next i toConfig _ =>
            have hmode : P (cli.dropOut toConfig) := by
              cases toConfig with
              | true => exact h.mode cli _ _ hcli
              | false => exact hcli
            dsimp only
            split
            · exact hmode
            · split
              · split
                · exact h.write hmode _
                · exact h.correctChecks program segments hmode _ _ _ _
              · split
                · split
                  · exact h.write hmode _
                  · exact h.correctChecks program segments hmode _ _ _ _
                · have hbelow := ih hmode (path ++ [i])
                  split
                  · split
                    · exact h.correctChecks program segments hbelow _ _ _ _
                    · exact h.write hbelow _
                  · exact hbelow

theorem Kept.runCommand (h : Kept P) (program : Program κ ω) (hcli : P cli)
    (command : List Char) : P (runCommand program cli command).1 := by
  rw [Cli.runCommand]
  split
  · exact hcli
  · exact h.findCommand program _ _ hcli []

end Kept

/-! ## The tree stays fresh -/

/-- The lengths in the tree belong to the privilege and the mode. -/
def CliDef.Fresh (cli : CliDef κ ω) : Prop := Cli.Fresh cli.privilege cli.mode cli.commands

theorem fresh_setPrivilege (cli : CliDef κ ω) (priv : ℤ) (h : cli.Fresh) :
    (cli.setPrivilege priv).Fresh := by
  rw [CliDef.setPrivilege]
  split
  · exact fresh_buildShortest priv cli.mode cli.commands
  · exact h

theorem fresh_setConfigmode (cli : CliDef κ ω) (mode : ℤ) (desc : Option (List Char))
    (h : cli.Fresh) : (cli.setConfigmode mode desc).Fresh := by
  rw [CliDef.setConfigmode]
  split
  · exact fresh_buildShortest cli.privilege mode cli.commands
  · exact h

theorem kept_fresh : Kept (CliDef.Fresh : CliDef κ ω → Prop) where
  output := fun _ _ _ h => h
  world := fun _ _ h => h
  asksPassword := fun _ h => h
  privilege := fresh_setPrivilege
  mode := fresh_setConfigmode

/-! ## A path that is spelled -/

theorem siblingsAt_concat (commands : List (Command κ)) (path : List ℕ) (i : ℕ) {c : Command κ}
    (hc : (siblingsAt commands path)[i]? = some c) :
    siblingsAt commands (path ++ [i]) = c.children := by
  induction path generalizing commands with
  | nil =>
      rw [siblingsAt] at hc
      rw [List.nil_append, siblingsAt, hc]
      rfl
  | cons j path ih =>
      rw [siblingsAt] at hc
      rw [List.cons_append, siblingsAt]
      cases hj : commands[j]? with
      | none => simp [hj] at hc
      | some d =>
          rw [hj] at hc
          exact ih d.children hc

/-- The words select the commands of a path, one below the other, and none of them
asks for help. -/
inductive Spells (wild : Bool) (privilege mode : ℤ) :
    List (Command κ) → List Word → List ℕ → Command κ → Prop
  | last {commands : List (Command κ)} {w : Word} {i : ℕ} {c : Command κ}
      (names : NamesOk privilege mode commands) (ends : '\x00' ∉ w)
      (plain : asksHelp wild w = false) (selects : Selects privilege mode commands w i c) :
      Spells wild privilege mode commands [w] [i] c
  | step {commands : List (Command κ)} {w : Word} {i : ℕ} {c d : Command κ} {ws : List Word}
      {path : List ℕ}
      (names : NamesOk privilege mode commands) (ends : '\x00' ∉ w)
      (plain : asksHelp wild w = false) (selects : Selects privilege mode commands w i c)
      (rest : Spells wild privilege mode c.children ws path d) :
      Spells wild privilege mode commands (w :: ws) (i :: path) d

theorem Spells.ne_nil {wild : Bool} {privilege mode : ℤ} {commands : List (Command κ)}
    {ws : List Word} {path : List ℕ} {c : Command κ}
    (h : Spells wild privilege mode commands ws path c) : ws ≠ [] ∧ commands ≠ [] := by
  cases h with
  | last _ _ _ selects =>
      refine ⟨List.cons_ne_nil _ _, ?_⟩
      rintro rfl
      simpa using selects.at_position
  | step _ _ _ selects _ =>
      refine ⟨List.cons_ne_nil _ _, ?_⟩
      rintro rfl
      simpa using selects.at_position

/-- A function of the program may refuse its arguments, and then the commands above
are tried.  The other functions never do. -/
def Program.TakesArguments (program : Program κ ω) : Prop :=
  ∀ k cli name args, (program.call k cli name args).2.2 ≠ CLI_ERROR_ARG

theorem runCallback_ne_errorArg {program : Program κ ω} (hprogram : program.TakesArguments)
    (cli : CliDef κ ω) (name : List Char) (args : List Word) (callback : Callback κ) :
    (runCallback program cli name args callback).2 ≠ CLI_ERROR_ARG := by
  have hok : CLI_OK ≠ CLI_ERROR_ARG := by decide
  have hquit : CLI_QUIT ≠ CLI_ERROR_ARG := by decide
  cases callback with
  | program k => exact hprogram k cli name args
  | help => exact hok
  | history => exact hok
  | quit => exact hquit
  | exit =>
      rw [runCallback]
      split
      · exact hquit
      · exact hok
  | enable =>
      rw [runCallback]
      split
      · exact hok
      · split <;> exact hok
  | disable => exact hok
  | configureTerminal => exact hok

theorem setupFilters_rc {re : Regex} {wild : Bool} {segments : List (List Word)}
    {filters filters' : List Filter} {rc : ℤ} {lines : List (List Char)}
    (h : setupFilters re wild segments filters = .returned filters' rc lines) :
    rc ≠ CLI_ERROR_ARG := by
  induction segments generalizing filters with
  | nil => cases h
  | cons argv segments ih =>
      cases argv with
      | nil =>
          cases h
          decide
      | cons cmd args =>
          rw [setupFilters] at h
          split at h
          · cases h
            decide
          · split at h
            · cases h
              decide
            · split at h
              · exact ih h
              · cases h

theorem correctChecks_ne_errorArg {program : Program κ ω} (hprogram : program.TakesArguments)
    (segments : List (List Word)) (cli : CliDef κ ω) (path : List ℕ) (c : Command κ)
    (callback : Callback κ) (args : List Word) :
    (correctChecks program segments cli path c callback args).2.1 ≠ CLI_ERROR_ARG := by
  rw [correctChecks]
  split
  · next hsetup => exact setupFilters_rc hsetup
  · change CLI_ERROR ≠ CLI_ERROR_ARG
    decide
  · exact runCallback_ne_errorArg hprogram _ _ _ _

/-- The words of a path call its last command with the words behind them. -/
theorem findCommand_of_spells {program : Program κ ω} (hprogram : program.TakesArguments)
    (segments : List (List Word)) (cli : CliDef κ ω) {commands : List (Command κ)}
    {ws : List Word} {path : List ℕ} {c : Command κ} {callback : Callback κ} {args : List Word}
    (hspells : Spells program.wild cli.privilege cli.mode commands ws path c)
    (hfresh : Cli.Fresh cli.privilege cli.mode commands) (hcallback : c.callback = some callback)
    (hend : c.children = [] ∨ args = []) {above : List ℕ}
    (hcommands : siblingsAt cli.commands above = commands) :
    findCommand program segments (ws ++ args) cli above =
      correctChecks program segments cli (above ++ path) c callback args := by
  induction hspells generalizing above with
  | @last commands w i c hnames hw hplain hselects =>
      have hfound := (findLoop_eq_some_iff hfresh hnames hw i).mpr ⟨c, hselects⟩
      have hget : (siblingsAt cli.commands above)[i]? = some c := by
        rw [hcommands]
        exact hselects.at_position
      rw [List.cons_append, List.nil_append, findCommand, if_neg (by simp [hplain]), hcommands,
        hfound]
      simp only [dropOut_false, hget]
      rw [hcallback]
      by_cases hleaf : c.children.isEmpty = true
      · rw [if_pos hleaf]
      · have hargs : args = [] := hend.resolve_left fun h => hleaf (by simp [h])
        rw [if_neg hleaf, if_pos hargs]
  | @step commands w i c d ws path hnames hw hplain hselects hrest ih =>
      have hfound := (findLoop_eq_some_iff hfresh hnames hw i).mpr ⟨c, hselects⟩
      have hget : (siblingsAt cli.commands above)[i]? = some c := by
        rw [hcommands]
        exact hselects.at_position
      obtain ⟨hws, hchildren⟩ := hrest.ne_nil
      have hinner : ¬ c.children.isEmpty = true := by simpa using hchildren
      have hmore : ws ++ args ≠ [] := by simp [hws]
      have hbelow := ih (hfresh.children hselects.at_position hselects.visible) hcallback hend
        (siblingsAt_concat cli.commands above i hget)
      have hrc : (findCommand program segments (ws ++ args) cli (above ++ [i])).2.1 ≠
          CLI_ERROR_ARG := by
        rw [hbelow]
        exact correctChecks_ne_errorArg hprogram segments cli _ d callback args
      rw [List.cons_append, findCommand, if_neg (by simp [hplain]), hcommands, hfound]
      simp only [dropOut_false, hget]
      rw [if_neg hinner, if_neg hmore]
      refine (if_neg hrc).trans ?_
      rw [hbelow, List.append_assoc, List.singleton_append]

/-! ## A line that spells a path -/

theorem parseLine_dropWhile (line : List Char) (maxWords : ℕ) :
    parseLine (line.dropWhile Rule.isSpace) maxWords = parseLine line maxWords := by
  rw [parseLine, parseLine, List.dropWhile_idempotent]

theorem runCommand_eq (program : Program κ ω) (cli : CliDef κ ω) {line : List Char}
    {words : List Word} (hwords : parseLine line CLI_MAX_LINE_WORDS = words) (hne : words ≠ []) :
    runCommand program cli line =
      ((findCommand program (filterWords words) (commandWords words) cli []).1,
        if (findCommand program (filterWords words) (commandWords words) cli []).2.1 = CLI_QUIT then
          CLI_QUIT
        else CLI_OK,
        (findCommand program (filterWords words) (commandWords words) cli []).2.2) := by
  rw [← parseLine_dropWhile] at hwords
  rw [runCommand]
  cases hline : line.dropWhile Rule.isSpace with
  | nil =>
      rw [hline] at hwords
      exact absurd hwords.symm hne
  | cons c s =>
      rw [hline] at hwords
      simp only [hwords]

/-- The words in front of the first bar, and those behind. -/
theorem words_split {front rest : List Word} (hfront : ∀ w ∈ front, isBar w = false)
    (hne : front ≠ []) (hrest : ∀ w ∈ rest.head?, isBar w = true) :
    commandWords (front ++ rest) = front ∧ filterWords (front ++ rest) = barSegments rest := by
  obtain ⟨w, front, rfl⟩ := List.exists_cons_of_ne_nil hne
  have hhead : isBar w = false := hfront w List.mem_cons_self
  have htake : ∀ {l : List Word}, (∀ v ∈ l, isBar v = false) →
      (l ++ rest).takeWhile (!isBar ·) = l := by
    intro l hl
    rw [List.takeWhile_append_of_pos fun v hv => by simp [hl v hv]]
    cases rest with
    | nil => simp
    | cons b rest => simp [hrest b rfl]
  have hsegments : ∀ {l : List Word}, (∀ v ∈ l, isBar v = false) →
      barSegments (l ++ rest) = barSegments rest := by
    intro l hl
    induction l with
    | nil => rfl
    | cons v l ih =>
        obtain ⟨hv, hl⟩ := List.forall_mem_cons.mp hl
        rw [List.cons_append, barSegments, if_neg (by simp [hv]), ih hl]
  constructor
  · rw [commandWords, if_neg (by simp [hhead])]
    exact htake hfront
  · rw [filterWords, if_neg (by simp [hhead])]
    exact hsegments hfront

/-- A line as a user types it, with blanks and quotes: the words `ws` for a command,
its arguments, and behind them the bars with the filters. -/
structure TypedLine where
  lead : List Char
  items : List (Item × List Char)
  ws : List Word
  args : List Word
  rest : List Word
  blank : ∀ d ∈ lead, Rule.isSpace d = true
  spaced : Spaced items
  room : items.length < CLI_MAX_LINE_WORDS
  words_eq : (items.map fun p => p.1.word) = ws ++ args ++ rest
  ne_nil : ws ≠ []
  front : ∀ w ∈ ws ++ args, isBar w = false
  bars : ∀ w ∈ rest.head?, isBar w = true

def TypedLine.text (t : TypedLine) : List Char := t.lead ++ lineText t.items

theorem TypedLine.parse (t : TypedLine) :
    parseLine t.text CLI_MAX_LINE_WORDS = t.ws ++ t.args ++ t.rest := by
  have hfirst : ∀ p ∈ t.items.head?, p.1.isBar = false := by
    intro p hp
    cases hitem : p.1 with
    | bar =>
        have hhead : (t.ws ++ t.args ++ t.rest).head? = some ['|'] := by
          rw [← t.words_eq, List.head?_map, Option.mem_def.mp hp, Option.map_some, hitem]
          rfl
        obtain ⟨w, ws, hws⟩ := List.exists_cons_of_ne_nil t.ne_nil
        have hw : w = ['|'] := by simpa [hws] using hhead
        have hbar := t.front w (by simp [hws])
        simp [hw, isBar] at hbar
    | bare w => rfl
    | quoted quote w => rfl
  have hroom := t.room
  rw [TypedLine.text, parseLine_lineText t.lead CLI_MAX_LINE_WORDS t.blank t.spaced hfirst,
    ← t.words_eq]
  exact List.take_of_length_le (by rw [List.length_map]; omega)

theorem barSegments_eq_nil_iff {rest : List Word} (h : ∀ w ∈ rest.head?, isBar w = true) :
    barSegments rest = [] ↔ rest = [] := by
  cases rest with
  | nil => simp [barSegments]
  | cons w rest =>
      rw [barSegments, if_pos (h w rfl)]
      simp

/-- The session when the command of a line is called: with the filters of the line,
or with those it had. -/
def TypedLine.start (t : TypedLine) (cli : CliDef κ ω) (filters : List Filter) : CliDef κ ω :=
  if t.rest = [] then cli else { cli with filters := filters }

/-- A line that spells a path sets up its filters and calls the last command. -/
theorem runCommand_typedLine {program : Program κ ω} (hprogram : program.TakesArguments)
    {cli : CliDef κ ω} (hfresh : cli.Fresh) (t : TypedLine) {path : List ℕ} {c : Command κ}
    {callback : Callback κ} {filters : List Filter}
    (hspells : Spells program.wild cli.privilege cli.mode cli.commands t.ws path c)
    (hcallback : c.callback = some callback) (hlast : c.children = [] ∨ t.args = [])
    (hsetup : setupFilters program.regex program.wild (barSegments t.rest) [] = .ready filters) :
    let name := commandName cli.commands path
    let result := runCallback program (t.start cli filters) name t.args callback
    runCommand program cli t.text =
      (result.1.dropFilters, if result.2 = CLI_QUIT then CLI_QUIT else CLI_OK,
        [⟨c, callback, name, t.args, cli.privilege, cli.mode⟩]) := by
  intro name result
  have hne : t.ws ++ t.args ≠ [] := by simp [t.ne_nil]
  obtain ⟨hwords, hfilters⟩ := words_split t.front hne t.bars
  have hfind : findCommand program (barSegments t.rest) (t.ws ++ t.args) cli [] =
      correctChecks program (barSegments t.rest) cli path c callback t.args :=
    findCommand_of_spells hprogram (barSegments t.rest) cli hspells hfresh hcallback hlast rfl
  have hchecks : correctChecks program (barSegments t.rest) cli path c callback t.args =
      (result.1.dropFilters, result.2,
        [⟨c, callback, name, t.args, cli.privilege, cli.mode⟩]) := by
    simp only [result, name, TypedLine.start]
    rw [correctChecks, hsetup]
    by_cases hrest : t.rest = []
    · simp [hrest, barSegments]
    · have hsegments : barSegments t.rest ≠ [] :=
        fun hnil => hrest ((barSegments_eq_nil_iff t.bars).mp hnil)
      simp [hrest, hsegments]
  rw [runCommand_eq program cli t.parse (by simp [t.ne_nil]), hwords, hfilters, hfind, hchecks]

/-! ## The output of a line -/

/-- What is printed goes through the filters line by line. -/
theorem acts_print (re : Regex) (cli : CliDef κ ω) (texts : List (List Char)) :
    (texts.map Action.print).foldl (CliDef.act re) cli =
      { cli with
        filters := (feedAll (Filter.step re) cli.filters (texts.flatMap textLines)).1
        client := cli.client ++
          (feedAll (Filter.step re) cli.filters (texts.flatMap textLines)).2 } := by
  induction texts generalizing cli with
  | nil => simp [feedAll]
  | cons text texts ih =>
      rw [List.map_cons, List.foldl_cons, ih, List.flatMap_cons, feedAll_append]
      simp [CliDef.act, CliDef.print]

end EceLib.Cli
