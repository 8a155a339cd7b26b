import EceLib.Cli.Filters

/-!
# The commands of `lib/cli.c` and how a line finds one

The registered commands form a tree.  A pointer to a command is its path in the
tree, the positions at which it and its parents stand in their lists.
`unique_len` is stored in the tree and computed anew by `cli_build_shortest`
whenever the privilege or the mode changes.
-/

namespace EceLib.Cli

open Support
open Json (decimal tolower)

/-! ## Commands -/

def PRIVILEGE_UNPRIVILEGED : ℤ := 0

def PRIVILEGE_PRIVILEGED : ℤ := 15

def MODE_ANY : ℤ := -1

def MODE_EXEC : ℤ := 0

def MODE_CONFIG : ℤ := 1

def CLI_OK : ℤ := 0

def CLI_ERROR : ℤ := -1

def CLI_QUIT : ℤ := -2

def CLI_ERROR_ARG : ℤ := -3

/-- The functions that can be registered: those of `cli.c`, and the program's own. -/
inductive Callback (κ : Type) where
  | help
  | quit
  | exit
  | history
  | enable
  | disable
  | configureTerminal
  | program (k : κ)
deriving DecidableEq

/-- `struct cli_command`; `next` is the list it stands in. -/
structure Command (κ : Type) where
  command : List Char
  callback : Option (Callback κ)
  uniqueLen : ℕ
  help : List Char
  privilege : ℤ
  mode : ℤ
  children : List (Command κ)

variable {κ ω : Type}

/-- A command can be used with this privilege and in this mode. -/
def Command.visible (privilege mode : ℤ) (c : Command κ) : Bool :=
  (c.mode == MODE_ANY || c.mode == mode) && decide (c.privilege ≤ privilege)

/-- `len` after the inner loop of `cli_build_shortest`. -/
def sharedLen : List Char → List Char → ℕ
  | a :: cp, b :: pp => if a = b then sharedLen cp pp + 1 else 1
  | _, _ => 1

/-- The `unique_len` of a visible command at position `i`. -/
def shortest (privilege mode : ℤ) (commands : List (Command κ)) (i : ℕ) (name : List Char) : ℕ :=
  (commands.zipIdx.filter fun p => p.2 != i && p.1.visible privilege mode).foldl
    (fun len p => max len (sharedLen name p.1.command)) 1

mutual

/-- The body of the loop of `cli_build_shortest`. -/
def buildCommand (privilege mode : ℤ) (commands : List (Command κ)) (i : ℕ) :
    Command κ → Command κ
  | ⟨command, callback, _, help, priv, md, children⟩ =>
    if (md == MODE_ANY || md == mode) && decide (priv ≤ privilege) then
      ⟨command, callback, shortest privilege mode commands i command, help, priv, md,
        buildLoop privilege mode children 0 children⟩
    else ⟨command, callback, command.length, help, priv, md, children⟩

/-- The loop of `cli_build_shortest` from position `i` on. -/
def buildLoop (privilege mode : ℤ) (commands : List (Command κ)) (i : ℕ) :
    List (Command κ) → List (Command κ)
  | [] => []
  | c :: cs =>
    buildCommand privilege mode commands i c :: buildLoop privilege mode commands (i + 1) cs

end

def buildShortest (privilege mode : ℤ) (commands : List (Command κ)) : List (Command κ) :=
  buildLoop privilege mode commands 0 commands

/-- The list that a path leads to: the commands below its last. -/
def siblingsAt (commands : List (Command κ)) : List ℕ → List (Command κ)
  | [] => commands
  | i :: path =>
    match commands[i]? with
    | some c => siblingsAt c.children path
    | none => []

/-- The commands along a path. -/
def along (commands : List (Command κ)) : List ℕ → List (Command κ)
  | [] => []
  | i :: path =>
    match commands[i]? with
    | some c => c :: along c.children path
    | none => []

/-- `cli_command_name`. -/
def commandName (commands : List (Command κ)) (path : List ℕ) : List Char :=
  (along commands path).foldr
    (fun c o => c.command ++ (if o = [] then [] else [' ']) ++ o) []

/-! ## The state of a session -/

inductive LoginState where
  | login
  | password
  | normal
  | enablePassword
  | enable
deriving DecidableEq

/-- What of `struct cli_def` the commands read and change.  `client` is what has
been written to it, line by line, and `world` is everything else. -/
structure CliDef (κ ω : Type) where
  commands : List (Command κ)
  privilege : ℤ
  mode : ℤ
  state : LoginState
  promptchar : List Char
  modestring : Option (List Char)
  filters : List Filter
  history : List (List Char)
  client : List (List Char)
  world : ω

/-- What a function of the program can do with the session. -/
inductive Action where
  | print (text : List Char)
  | error (text : List Char)
  | setPrivilege (priv : ℤ)
  | setConfigmode (mode : ℤ) (desc : Option (List Char))

/-- What is set up before a session, and the code outside the library. -/
structure Program (κ ω : Type) where
  regex : Regex
  /-- A question mark stands in front of an empty word. -/
  wild : Bool
  users : List (List Char × List Char)
  authCallback : Option (List Char → List Char → Bool)
  enablePassword : Option (List Char)
  enableCallback : Option (List Char → Bool)
  crypt : List Char → List Char → List Char
  banner : Option (List Char)
  /-- A function of the program, called with the name and the arguments. -/
  call : κ → CliDef κ ω → List Char → List Word → ω × List Action × ℤ

/-- `cli_error`. -/
def CliDef.error (cli : CliDef κ ω) (text : List Char) : CliDef κ ω :=
  { cli with client := cli.client ++ textLines text }

/-- Lines that are written with `fprintf`. -/
def CliDef.write (cli : CliDef κ ω) (lines : List (List Char)) : CliDef κ ω :=
  { cli with client := cli.client ++ lines }

/-- Several calls of `cli_error`. -/
def CliDef.errors (cli : CliDef κ ω) (texts : List (List Char)) : CliDef κ ω :=
  cli.write (texts.flatMap textLines)

/-- `cli_print`. -/
def CliDef.print (re : Regex) (cli : CliDef κ ω) (text : List Char) : CliDef κ ω :=
  let out := feedAll (Filter.step re) cli.filters (textLines text)
  { cli with filters := out.1, client := cli.client ++ out.2 }

/-- `cli_set_privilege`. -/
def CliDef.setPrivilege (cli : CliDef κ ω) (priv : ℤ) : CliDef κ ω :=
  if priv ≠ cli.privilege then
    { cli with
      privilege := priv
      promptchar := if priv = PRIVILEGE_PRIVILEGED then ['#', ' '] else ['>', ' ']
      commands := buildShortest priv cli.mode cli.commands }
  else cli

/-- The mode string that `cli_set_configmode` chooses. -/
def configModestring (mode : ℤ) (desc : Option (List Char)) : Option (List Char) :=
  if mode = 0 then none
  else match desc with
    | some (c :: desc) => some (("(config-".toList ++ (c :: desc) ++ [')']).take 63)
    | _ => some "(config)".toList

/-- `cli_set_configmode`. -/
def CliDef.setConfigmode (cli : CliDef κ ω) (mode : ℤ) (desc : Option (List Char)) : CliDef κ ω :=
  if mode ≠ cli.mode then
    { cli with
      mode := mode
      modestring := configModestring mode desc
      commands := buildShortest cli.privilege mode cli.commands }
  else cli

def CliDef.act (re : Regex) (cli : CliDef κ ω) : Action → CliDef κ ω
  | .print text => cli.print re text
  | .error text => cli.error text
  | .setPrivilege priv => cli.setPrivilege priv
  | .setConfigmode mode desc => cli.setConfigmode mode desc

/-! ## The functions of the library -/

mutual

/-- The body of the loop of `cli_show_help`; `name` is what the parents are called. -/
def helpOf (privilege mode : ℤ) (name : List Char) : Command κ → List (List Char)
  | ⟨command, callback, _, help, priv, md, children⟩ =>
    let name := name ++ (if name = [] then [] else [' ']) ++ command
    (if callback.isSome && decide (priv ≤ privilege) && (md == mode || md == MODE_ANY) then
      [helpLine name help] else []) ++
      showHelp privilege mode name children

/-- `cli_show_help`. -/
def showHelp (privilege mode : ℤ) (name : List Char) : List (Command κ) → List (List Char)
  | [] => []
  | c :: cs => helpOf privilege mode name c ++ showHelp privilege mode name cs

end

/-- `cli_int_quit`. -/
def cliIntQuit (cli : CliDef κ ω) : CliDef κ ω × ℤ :=
  ((cli.setPrivilege PRIVILEGE_UNPRIVILEGED).setConfigmode MODE_EXEC none, CLI_QUIT)

/-- `%3d. %s` of `cli_int_history`. -/
def historyLine (i : ℕ) (cmd : List Char) : List Char :=
  List.replicate (3 - (decimal i).length) ' ' ++ decimal i ++ ['.', ' '] ++ cmd

/-- A registered function is called. -/
def runCallback (program : Program κ ω) (cli : CliDef κ ω) (name : List Char) (args : List Word) :
    Callback κ → CliDef κ ω × ℤ
  | .help =>
    (cli.errors ("\nCommands available:".toList ::
      showHelp cli.privilege cli.mode [] cli.commands), CLI_OK)
  | .history =>
    (cli.errors ("\nCommand history:".toList ::
      cli.history.zipIdx.map fun p => historyLine p.2 p.1), CLI_OK)
  | .quit => cliIntQuit cli
  | .exit =>
    if cli.mode = MODE_EXEC then cliIntQuit cli
    else (cli.setConfigmode MODE_EXEC none, CLI_OK)
  | .enable =>
    if cli.privilege = PRIVILEGE_PRIVILEGED then (cli, CLI_OK)
    else if program.enablePassword.isNone ∧ program.enableCallback.isNone then
      ((cli.setPrivilege PRIVILEGE_PRIVILEGED).setConfigmode MODE_EXEC none, CLI_OK)
    else ({ cli with state := .enablePassword }, CLI_OK)
  | .disable =>
    ((cli.setPrivilege PRIVILEGE_UNPRIVILEGED).setConfigmode MODE_EXEC none, CLI_OK)
  | .configureTerminal => (cli.setConfigmode MODE_CONFIG none, CLI_OK)
  | .program k =>
    let (world, actions, rc) := program.call k cli name args
    (actions.foldl (CliDef.act program.regex) { cli with world := world }, rc)

/-! ## Finding the command of a word -/

/-- `strncasecmp` finds no difference in `n` characters. -/
def sameCase (n : ℕ) (s1 s2 : List Char) : Bool :=
  ((s1.map tolower ++ ['\x00']).take n == (s2.map tolower ++ ['\x00']).take n)

/-- The two comparisons of a command with a word. -/
def Command.matches (c : Command κ) (w : Word) : Bool :=
  sameCase c.uniqueLen c.command w && sameCase w.length c.command w

/-- The loop of `cli_find_command`: the position of the command that is used, and
whether `MODE_CONFIG` is entered for it. -/
def findLoop (privilege mode : ℤ) (w : Word) :
    List (Command κ) → ℕ → Option ℕ → Option ℕ → Option (ℕ × Bool)
  | [], _, againConfig, againAny =>
    match againConfig with
    | some i => some (i, true)
    | none => againAny.map fun i => (i, false)
  | c :: cs, i, againConfig, againAny =>
    if privilege < c.privilege then findLoop privilege mode w cs (i + 1) againConfig againAny
    else if c.matches w = false then findLoop privilege mode w cs (i + 1) againConfig againAny
    else if c.mode = mode ∨ (c.mode = MODE_ANY ∧ againAny.isSome) then some (i, false)
    else if mode > MODE_CONFIG ∧ c.mode = MODE_CONFIG then
      findLoop privilege mode w cs (i + 1) (some i) againAny
    else if c.mode = MODE_ANY then findLoop privilege mode w cs (i + 1) againConfig (some i)
    else findLoop privilege mode w cs (i + 1) againConfig againAny

/-- What is written for a word with a question mark. -/
def wordHelp (cli : CliDef κ ω) (path : List ℕ) (w : Word) : List (List Char) :=
  (match (along cli.commands path).getLast? with
    | some parent =>
      if parent.callback.isSome then
        [padded (commandName cli.commands path) ++ [' '] ++ parent.help]
      else []
    | none => []) ++
  ((siblingsAt cli.commands path).filter fun c =>
    sameCase (w.length - 1) c.command w && (c.callback.isSome || !c.children.isEmpty) &&
      decide (c.privilege ≤ cli.privilege) && (c.mode == cli.mode || c.mode == MODE_ANY)).map
    fun c => helpLine c.command c.help

/-- A function that was called: for which command, with what, and the privilege
and the mode at that time. -/
structure Call (κ : Type) where
  command : Command κ
  callback : Callback κ
  name : List Char
  args : List Word
  privilege : ℤ
  mode : ℤ

/-- The filters are called to clean up. -/
def CliDef.dropFilters (cli : CliDef κ ω) : CliDef κ ω :=
  { cli.write (cli.filters.flatMap Filter.finish) with filters := [] }

/-- `CORRECT_CHECKS`: the filters are set up, the command at `path` is run and the
filters are cleaned up. -/
def correctChecks (program : Program κ ω) (segments : List (List Word)) (cli : CliDef κ ω)
    (path : List ℕ) (c : Command κ) (callback : Callback κ) (args : List Word) :
    CliDef κ ω × ℤ × List (Call κ) :=
  match setupFilters program.regex program.wild segments [] with
  | .returned filters rc lines =>
    -- the filters that are set up already stay
    let filters := if filters = [] then cli.filters else filters
    ({ cli.errors lines with filters := filters }, rc, [])
  | .failed filters lines =>
    (({ cli.write lines with filters := filters }).dropFilters, CLI_ERROR, [])
  | .ready filters =>
    let filters := if segments = [] then cli.filters else filters
    let cli := { cli with filters := filters }
    let name := commandName cli.commands path
    let result := runCallback program cli name args callback
    (result.1.dropFilters, result.2, [⟨c, callback, name, args, cli.privilege, cli.mode⟩])

/-- The configuration mode is entered for a command that was remembered from it. -/
def CliDef.dropOut (cli : CliDef κ ω) (toConfig : Bool) : CliDef κ ω :=
  if toConfig then cli.setConfigmode MODE_CONFIG none else cli

@[simp] theorem dropOut_false (cli : CliDef κ ω) : cli.dropOut false = cli := rfl

/-- `cli_find_command` with the words from `start_word` to `c_words`. -/
def findCommand (program : Program κ ω) (segments : List (List Word)) :
    List Word → CliDef κ ω → List ℕ → CliDef κ ω × ℤ × List (Call κ)
  | [], cli, _ => (cli, CLI_ERROR, [])
  | w :: args, cli, path =>
    if asksHelp program.wild w then (cli.errors (wordHelp cli path w), CLI_OK, [])
    else
      match findLoop cli.privilege cli.mode w (siblingsAt cli.commands path) 0 none none with
      | none =>
        (if path = [] then cli.error ("Invalid command \"".toList ++ w ++ ['"']) else cli,
          CLI_ERROR_ARG, [])
      | some (i, toConfig) =>
        let cli := cli.dropOut toConfig
        match (siblingsAt cli.commands path)[i]? with
        | none => (cli, CLI_ERROR, [])
        | some c =>
          if c.children.isEmpty then
            match c.callback with
            | none =>
              (cli.error ("No callback for \"".toList ++ commandName cli.commands (path ++ [i]) ++
                ['"']), CLI_ERROR, [])
            | some callback =>
              correctChecks program segments cli (path ++ [i]) c callback args
          else if args = [] then
            match c.callback with
            | none => (cli.error "Incomplete command".toList, CLI_ERROR, [])
            | some callback =>
              correctChecks program segments cli (path ++ [i]) c callback args
          else
            let (cli, rc, calls) := findCommand program segments args cli (path ++ [i])
            if rc = CLI_ERROR_ARG then
              match c.callback with
              | some callback =>
                let result := correctChecks program segments cli (path ++ [i]) c callback args
                (result.1, result.2.1, calls ++ result.2.2)
              | none =>
                let kind := if path = [] then "command" else "argument"
                (cli.error ("Invalid ".toList ++ kind.toList ++ " \"".toList ++ w ++ ['"']),
                  CLI_ERROR_ARG, calls)
            else (cli, rc, calls)

def CLI_MAX_LINE_WORDS : ℕ := 128

/-- `cli_run_command`: whether the session goes on, and the calls. -/
def runCommand (program : Program κ ω) (cli : CliDef κ ω) (command : List Char) :
    CliDef κ ω × ℤ × List (Call κ) :=
  match command.dropWhile Rule.isSpace with
  | [] => (cli, CLI_OK, [])
  | c :: s =>
    let words := parseLine (c :: s) CLI_MAX_LINE_WORDS
    let result := findCommand program (filterWords words) (commandWords words) cli []
    (result.1, if result.2.1 = CLI_QUIT then CLI_QUIT else CLI_OK, result.2.2)

end EceLib.Cli
