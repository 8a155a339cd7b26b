import EceLib.Cli.Session

/-!
# The completions of a word

`cli_get_completions` of `lib/cli.c`.  The words in front of the last lead to a
list of commands, each of them only where it is the beginning of one command
alone; the last word is compared with the names of that list.  Where a filter has
begun, nothing is completed.
-/

namespace EceLib.Cli

open Support
open Json (tolower)

variable {κ ω : Type}

/-! ## The search -/

/-- The words of a line, and the last of them if it can go on. -/
def openWords (command : List Char) : List Word × Option Word :=
  let command := command.dropWhile Rule.isSpace
  let words := parseLine command CLI_MAX_LINE_WORDS
  if command = [] ∨ command.getLast? = some ' ' then (words, none)
  else (words.dropLast, words.getLast?)

/-- `filter`: the position of the last word that begins with a bar. -/
def filterAt (words : List Word) : ℕ :=
  words.zipIdx.foldl (fun filter p => if isBar p.1 then p.2 else filter) 0

/-- The filters that go on as the last word does. -/
def completeFilter (w : Word) : List (List Char) :=
  (filterCmds.map fun p => p.1.toList).filter fun cmd =>
    w.isEmpty || (decide (w.length < cmd.length) && w.isPrefixOf cmd)

/-- The next word is searched below a command. -/
def Command.goesBelow (privilege mode : ℤ) (w : Word) (c : Command κ) : Bool :=
  c.visible privilege mode && sameCase w.length c.command w && decide (c.uniqueLen ≤ w.length)

/-- The first of the commands below which the next word is searched. -/
def descend (privilege mode : ℤ) (w : Word) (commands : List (Command κ)) : Option (Command κ) :=
  commands.find? (Command.goesBelow privilege mode w)

/-- The loop over the commands. -/
def completeCommand (privilege mode : ℤ) (last : Option Word) :
    List Word → List (Command κ) → List (List Char)
  | [], commands =>
    ((commands.filter fun c =>
      c.visible privilege mode && last.all fun w => sameCase w.length c.command w).map
        Command.command).take CLI_MAX_LINE_WORDS
  | w :: ws, commands =>
    match descend privilege mode w commands with
    | none => []
    | some c => completeCommand privilege mode last ws c.children

/-- `cli_get_completions`. -/
def getCompletions (cli : CliDef κ ω) (command : List Char) : List (List Char) :=
  let (ws, last) := openWords command
  let filter := filterAt (ws ++ last.toList)
  if filter = 0 then completeCommand cli.privilege cli.mode last ws cli.commands
  else if filter < ws.length then []
  else completeFilter (last.getD [])

/-! ## Filters -/

theorem foldl_filterAt (words : List Word) (i filter : ℕ) :
    (words.zipIdx i).foldl (fun filter p => if isBar p.1 then p.2 else filter) filter = filter ∧
        (∀ w ∈ words, isBar w = false) ∨
      ∃ k w, words[k]? = some w ∧ isBar w = true ∧
        (words.zipIdx i).foldl (fun filter p => if isBar p.1 then p.2 else filter) filter =
          i + k := by
  induction words generalizing i filter with
  | nil => simp
  | cons w words ih =>
      rw [List.zipIdx_cons, List.foldl_cons]
      rcases ih (i + 1) (if isBar w then i else filter) with ⟨hfold, hnone⟩ | ⟨k, v, hk, hv, hfold⟩
      · by_cases hw : isBar w = true
        · right
          refine ⟨0, w, rfl, hw, ?_⟩
          rw [hfold, if_pos hw, Nat.add_zero]
        · left
          rw [hfold, if_neg hw]
          exact ⟨rfl, by simpa [hw] using hnone⟩
      · right
        refine ⟨k + 1, v, hk, hv, ?_⟩
        rw [hfold]
        omega

/-- No filter has begun: only the first word may begin with a bar. -/
theorem filterAt_eq_zero_iff (words : List Word) :
    filterAt words = 0 ↔ ∀ w ∈ words.tail, isBar w = false := by
  cases words with
  | nil => simp [filterAt]
  | cons w words =>
      have hfold : filterAt (w :: words) =
          (words.zipIdx 1).foldl (fun filter p => if isBar p.1 then p.2 else filter) 0 := by
        rw [filterAt, List.zipIdx_cons, List.foldl_cons, ite_self]
      rw [hfold, List.tail_cons]
      rcases foldl_filterAt words 1 0 with ⟨hzero, hnone⟩ | ⟨k, v, hk, hv, hpos⟩
      · exact iff_of_true hzero hnone
      · refine iff_of_false (by omega) fun hnone => ?_
        simp [hnone v (List.mem_of_getElem? hk)] at hv

/-- No filter goes on as a word that begins with a bar does. -/
theorem completeFilter_bar {w : Word} (hw : isBar w = true) : completeFilter w = [] := by
  obtain ⟨v, rfl⟩ : ∃ v, w = '|' :: v := by
    cases w with
    | nil => simp [isBar] at hw
    | cons c v =>
        rw [isBar, List.head?_cons, beq_iff_eq, Option.some.injEq] at hw
        exact ⟨v, by rw [hw]⟩
  rw [completeFilter, List.filter_eq_nil_iff]
  intro cmd hcmd
  simp only [filterCmds, List.map_cons, List.map_nil, List.mem_cons, List.not_mem_nil,
    or_false] at hcmd
  rcases hcmd with rfl | rfl | rfl | rfl | rfl | rfl | rfl <;> simp [List.isPrefixOf]

/-- Where a filter has begun, nothing is completed. -/
theorem getCompletions_filter (cli : CliDef κ ω) {command : List Char}
    (h : filterAt ((openWords command).1 ++ (openWords command).2.toList) ≠ 0) :
    getCompletions cli command = [] := by
  rw [getCompletions]
  rcases hopen : openWords command with ⟨ws, last⟩
  rw [hopen] at h
  dsimp only at h ⊢
  rw [if_neg h]
  split
  · rfl
  · next hlast =>
      rcases foldl_filterAt (ws ++ last.toList) 0 0 with ⟨hzero, -⟩ | ⟨k, w, hk, hw, hfold⟩
      · exact absurd hzero h
      · have hfold : filterAt (ws ++ last.toList) = 0 + k := hfold
        rw [List.getElem?_append_right (by omega)] at hk
        cases last with
        | none => simp at hk
        | some v =>
            have hv : v = w := by
              rw [Option.toList_some, List.getElem?_singleton] at hk
              split at hk
              · exact Option.some.inj hk
              · exact absurd hk (by simp)
            rw [Option.getD_some, hv]
            exact completeFilter_bar hw

/-! ## What is completed -/

section Complete

variable {privilege mode : ℤ} {commands : List (Command κ)}

/-- A word is the beginning of one visible command and of no other. -/
structure Shortens (privilege mode : ℤ) (commands : List (Command κ)) (w : Word) (i : ℕ)
    (c : Command κ) : Prop where
  at_position : commands[i]? = some c
  visible : c.visible privilege mode = true
  ne_nil : w ≠ []
  begins : w.map tolower <+: c.command
  others : ∀ j d, commands[j]? = some d → j ≠ i → d.visible privilege mode = true →
    ¬ w.map tolower <+: d.command

/-- The words lead from one list of commands to another, by the path. -/
inductive Leads (privilege mode : ℤ) : List (Command κ) → List Word → List ℕ → Prop
  | here {commands : List (Command κ)} : Leads privilege mode commands [] []
  | step {commands : List (Command κ)} {w : Word} {i : ℕ} {c : Command κ} {ws : List Word}
      {path : List ℕ} (shortens : Shortens privilege mode commands w i c)
      (rest : Leads privilege mode c.children ws path) :
      Leads privilege mode commands (w :: ws) (i :: path)

/-- The names are as they are registered wherever commands can be used, and no list
has more commands than can be completed. -/
def Orderly (privilege mode : ℤ) (commands : List (Command κ)) : Prop :=
  ∀ path, (∀ c ∈ along commands path, c.visible privilege mode = true) →
    NamesOk privilege mode (siblingsAt commands path) ∧
      (siblingsAt commands path).length ≤ CLI_MAX_LINE_WORDS

theorem Orderly.here (h : Orderly privilege mode commands) :
    NamesOk privilege mode commands ∧ commands.length ≤ CLI_MAX_LINE_WORDS :=
  h [] (by simp [along])

theorem Orderly.children (h : Orderly privilege mode commands) {i : ℕ} {c : Command κ}
    (hc : commands[i]? = some c) (hv : c.visible privilege mode = true) :
    Orderly privilege mode c.children := by
  intro path hpath
  have hbelow := h (i :: path)
  simp only [along, siblingsAt, hc, List.forall_mem_cons] at hbelow
  exact hbelow ⟨hv, hpath⟩

/-- The search goes below the command that a word shortens. -/
theorem descend_eq_some_iff (hfresh : Fresh privilege mode commands)
    (hnames : NamesOk privilege mode commands) {w : Word} (hw : '\x00' ∉ w) {c : Command κ} :
    descend privilege mode w commands = some c ↔
      ∃ i, Shortens privilege mode commands w i c := by
  have hlen : (w.map tolower).length = w.length := List.length_map tolower
  -- the test of the search, for the command at a position
  have htest : ∀ {i : ℕ} {d : Command κ}, commands[i]? = some d →
      (d.goesBelow privilege mode w = true ↔ Shortens privilege mode commands w i d) := by
    intro i d hd
    obtain ⟨hplain, -⟩ := hnames.plain d (List.mem_of_getElem? hd)
    rw [Command.goesBelow, Bool.and_eq_true, Bool.and_eq_true, sameCase_length_iff hplain hw,
      decide_eq_true_eq]
    constructor
    · rintro ⟨⟨hv, hbegins⟩, hunique⟩
      rw [hfresh.uniqueLen hd hv, shortest_le_iff] at hunique
      refine ⟨hd, hv, List.length_pos_iff.mp hunique.1, hbegins, fun j e he hj hev => ?_⟩
      rw [← sharedLen_le_iff hbegins, hlen]
      exact hunique.2 j e he hj hev
    · rintro ⟨-, hv, hne, hbegins, hothers⟩
      refine ⟨⟨hv, hbegins⟩, ?_⟩
      rw [hfresh.uniqueLen hd hv, shortest_le_iff]
      refine ⟨List.length_pos_iff.mpr hne, fun j e he hj hev => ?_⟩
      rw [← hlen, sharedLen_le_iff hbegins]
      exact hothers j e he hj hev
  constructor
  · intro h
    obtain ⟨i, hi⟩ := List.mem_iff_getElem?.mp (List.mem_of_find?_eq_some h)
    exact ⟨i, (htest hi).mp (List.find?_some (p := Command.goesBelow privilege mode w) h)⟩
  · rintro ⟨i, hi⟩
    have hfound : (descend privilege mode w commands).isSome := by
      rw [descend, List.find?_isSome]
      exact ⟨c, List.mem_of_getElem? hi.at_position, (htest hi.at_position).mpr hi⟩
    obtain ⟨d, hd⟩ := Option.isSome_iff_exists.mp hfound
    obtain ⟨j, hj⟩ := List.mem_iff_getElem?.mp (List.mem_of_find?_eq_some hd)
    have hdj := (htest hj).mp (List.find?_some (p := Command.goesBelow privilege mode w) hd)
    have hij : j = i := by
      by_contra hne
      exact hi.others j d hj hne hdj.visible hdj.begins
    rw [hij, hi.at_position] at hj
    rw [hd, hj]

/-- The names that are found are those of the commands to which the words lead. -/
theorem mem_completeCommand_iff (hfresh : Fresh privilege mode commands)
    (horderly : Orderly privilege mode commands) {last : Option Word} {ws : List Word}
    (hws : ∀ w ∈ ws ++ last.toList, '\x00' ∉ w) {name : List Char} :
    name ∈ completeCommand privilege mode last ws commands ↔
      ∃ path, Leads privilege mode commands ws path ∧ ∃ c ∈ siblingsAt commands path,
        c.visible privilege mode = true ∧ (last.getD []).map tolower <+: c.command ∧
          c.command = name := by
  induction ws generalizing commands with
  | nil =>
      obtain ⟨hnames, hfew⟩ := horderly.here
      have hlast : ∀ c ∈ commands, ((last.all fun w => sameCase w.length c.command w) = true ↔
          (last.getD []).map tolower <+: c.command) := by
        intro c hc
        cases last with
        | none => simp
        | some w =>
            exact sameCase_length_iff (hnames.plain c hc).1 (hws w (by simp))
      rw [completeCommand, List.take_of_length_le
        ((List.length_map _).trans_le ((List.length_filter_le _ _).trans hfew)), List.mem_map]
      constructor
      · rintro ⟨c, hc, hname⟩
        obtain ⟨hmem, htest⟩ := List.mem_filter.mp hc
        rw [Bool.and_eq_true, hlast c hmem] at htest
        exact ⟨[], .here, c, hmem, htest.1, htest.2, hname⟩
      · rintro ⟨path, hleads, c, hmem, hv, hbegins, hname⟩
        cases hleads
        refine ⟨c, List.mem_filter.mpr ⟨hmem, ?_⟩, hname⟩
        rw [Bool.and_eq_true, hlast c hmem]
        exact ⟨hv, hbegins⟩
  | cons w ws ih =>
      have hw : '\x00' ∉ w := hws w (by simp)
      have hws' : ∀ v ∈ ws ++ last.toList, '\x00' ∉ v :=
        fun v hv => hws v (List.mem_cons_of_mem _ hv)
      have hstep := @descend_eq_some_iff κ privilege mode commands hfresh horderly.here.1 w hw
      rw [completeCommand]
      cases hdescend : descend privilege mode w commands with
      | none =>
          refine iff_of_false (by simp) ?_
          rintro ⟨path, hleads, -⟩
          cases hleads with
          | step shortens rest =>
              rw [hstep.mpr ⟨_, shortens⟩] at hdescend
              cases hdescend
      | some c =>
          obtain ⟨i, hi⟩ := hstep.mp hdescend
          rw [ih (hfresh.children hi.at_position hi.visible)
            (horderly.children hi.at_position hi.visible) hws']
          constructor
          · rintro ⟨path, hleads, d, hd, hfound⟩
            refine ⟨i :: path, .step hi hleads, d, ?_, hfound⟩
            rw [siblingsAt, hi.at_position]
            exact hd
          · rintro ⟨path, hleads, d, hd, hfound⟩
            cases hleads with
            | @step _ _ j e _ path shortens rest =>
                have he : e = c := by
                  have h := hstep.mpr ⟨j, shortens⟩
                  rw [hdescend] at h
                  exact (Option.some.inj h).symm
                subst he
                rw [siblingsAt, shortens.at_position] at hd
                exact ⟨path, rest, d, hd, hfound⟩

end Complete

theorem openWords_chars {command : List Char} {w : Word}
    (hw : w ∈ (openWords command).1 ++ (openWords command).2.toList) {a : Char} (ha : a ∈ w) :
    a ∈ command := by
  have hmem : w ∈ parseLine (command.dropWhile Rule.isSpace) CLI_MAX_LINE_WORDS := by
    rw [openWords] at hw
    split at hw
    · simpa using hw
    · rcases List.mem_append.mp hw with hw | hw
      · exact (List.dropLast_sublist _).subset hw
      · exact List.mem_of_getLast? (Option.mem_toList.mp hw)
  exact (List.dropWhile_suffix Rule.isSpace).subset (parseLine_chars hmem ha)

/-- In every session, what is offered for a line in which no filter has begun are the
names that go on as its last word does, of the commands to which the other words lead;
each of these must be the beginning of one command alone, also where it is its whole
name.  Behind a bar nothing is offered. -/
theorem session_completes (program : Program κ ω) (cli : CliDef κ ω) (events : List Event)
    {s : Session κ ω} (hs : s = sessionRun program (loopStart program cli) events)
    (horderly : Orderly s.cli.privilege s.cli.mode s.cli.commands) {text : List Char}
    (htext : '\x00' ∉ text) (name : List Char) :
    let ws := (openWords text).1
    let last := (openWords text).2
    name ∈ getCompletions s.cli text ↔
      (∀ w ∈ (ws ++ last.toList).tail, isBar w = false) ∧
        ∃ path, Leads s.cli.privilege s.cli.mode s.cli.commands ws path ∧
          ∃ c ∈ siblingsAt s.cli.commands path, c.visible s.cli.privilege s.cli.mode = true ∧
            (last.getD []).map tolower <+: c.command ∧ c.command = name := by
  intro ws last
  have hfresh : s.cli.Fresh := hs ▸ fresh_sessionRun program cli events
  have hplain : ∀ w ∈ ws ++ last.toList, '\x00' ∉ w :=
    fun w hw hz => htext (openWords_chars hw hz)
  rw [← filterAt_eq_zero_iff]
  by_cases hbar : filterAt (ws ++ last.toList) = 0
  · have hsearch : getCompletions s.cli text =
        completeCommand s.cli.privilege s.cli.mode last ws s.cli.commands := if_pos hbar
    rw [hsearch, mem_completeCommand_iff hfresh horderly hplain]
    exact (and_iff_right hbar).symm
  · rw [getCompletions_filter s.cli hbar]
    exact iff_of_false (by simp) fun h => hbar h.1

theorem orderly_of_children {privilege mode : ℤ} {commands : List (Command κ)}
    (hnames : NamesOk privilege mode commands) (hfew : commands.length ≤ CLI_MAX_LINE_WORDS)
    (hchildren : ∀ c ∈ commands, Orderly privilege mode c.children) :
    Orderly privilege mode commands := by
  intro path hpath
  cases path with
  | nil => exact ⟨hnames, hfew⟩
  | cons i path =>
      rw [along] at hpath
      rw [siblingsAt]
      cases hc : commands[i]? with
      | none =>
          exact ⟨namesOk_of_nodup privilege mode (by simp) List.nodup_nil, Nat.zero_le _⟩
      | some c =>
          rw [hc, List.forall_mem_cons] at hpath
          exact hchildren c (List.mem_of_getElem? hc) path hpath.2

/-- The tree at the beginning of the session. -/
theorem orderly_vault :
    Orderly PRIVILEGE_UNPRIVILEGED MODE_EXEC (loopStart vaultProgram vaultCli).cli.commands := by
  have hnone : Orderly PRIVILEGE_UNPRIVILEGED MODE_EXEC ([] : List (Command Unit)) :=
    orderly_of_children (namesOk_of_nodup _ _ (by simp) List.nodup_nil) (by decide) (by simp)
  have hshow : Orderly PRIVILEGE_UNPRIVILEGED MODE_EXEC
      (siblingsAt (loopStart vaultProgram vaultCli).cli.commands [2]) := by
    refine orderly_of_children (namesOk_of_nodup _ _ (by decide +kernel) (by decide +kernel))
      (by decide +kernel) fun c hc => ?_
    have hchildren : (siblingsAt (loopStart vaultProgram vaultCli).cli.commands [2]).map
        Command.children = [[], []] := rfl
    have hmem := List.mem_map_of_mem (f := Command.children) hc
    rw [hchildren] at hmem
    rwa [show c.children = [] by simpa using hmem]
  refine orderly_of_children (namesOk_of_nodup _ _ (by decide +kernel) (by decide +kernel))
    (by decide +kernel) fun c hc => ?_
  have hchildren : (loopStart vaultProgram vaultCli).cli.commands.map Command.children =
      [[], [], siblingsAt (loopStart vaultProgram vaultCli).cli.commands [2]] := rfl
  have hmem := List.mem_map_of_mem (f := Command.children) hc
  rw [hchildren] at hmem
  rcases (by simpa using hmem :
    c.children = [] ∨ c.children = siblingsAt _ [2]) with hnil | hbelow
  · rwa [hnil]
  · rwa [hbelow]

/-- Before the privilege is raised `sh s` goes on to `session` alone. -/
theorem session_completes_vault :
    ∃ path, Leads PRIVILEGE_UNPRIVILEGED MODE_EXEC (loopStart vaultProgram vaultCli).cli.commands
      ["sh".toList] path := by
  obtain ⟨-, path, hleads, -⟩ := (session_completes vaultProgram vaultCli [] rfl orderly_vault
    (show '\x00' ∉ "sh s".toList by decide) "session".toList).mp (by decide +kernel)
  exact ⟨path, hleads⟩

end EceLib.Cli
