import EceLib.Cli.Words
import EceLib.Json.Value
import EceLib.Support.Stage
import Mathlib.Data.List.Infix

/-!
# The filters behind a command

What stands behind the bars of a command line: `include`, `exclude`, `grep`,
`egrep`, `begin`, `between` and `count` of `lib/cli.c`.  A filter sees one line
of output after the other and lets it pass or keeps it back; at the end it is
called once more, and a count is written then.  What `regcomp` accepts and
`regexec` finds is a parameter.
-/

namespace EceLib.Cli

open Support
open Rule (isSpace)
open Json (decimal tolower)

abbrev Word := List Char

/-! ## The state of a filter -/

/-- What a line is searched for: a text, or a pattern that was compiled with
`REG_EXTENDED` and `REG_ICASE`. -/
inductive Pattern where
  | text (string : List Char)
  | regex (extended icase : Bool) (pattern : List Char)
deriving DecidableEq

/-- `struct cli_filter` with the data of its function. -/
inductive Filter where
  | matching (invert : Bool) (pattern : Pattern)
  | range (matched : Bool) (fromText : List Char) (toText : Option (List Char))
  | count (n : ℕ)
deriving DecidableEq

/-- The regular expressions of the C library. -/
structure Regex where
  /-- `regcomp` compiles the pattern. -/
  regcomp : Bool → Bool → List Char → Bool
  /-- `regexec` finds the pattern in the line. -/
  regexec : Bool → Bool → List Char → List Char → Bool

def strstr (string text : List Char) : Bool := decide (text <:+: string)

def Pattern.found (re : Regex) : Pattern → List Char → Bool
  | .text str, string => strstr string str
  | .regex extended icase pattern, string => re.regexec extended icase pattern string

/-- `cli_match_filter`. -/
def matchFilter (re : Regex) (invert : Bool) (pattern : Pattern) (string : List Char) : Bool :=
  if invert then !pattern.found re string else pattern.found re string

/-- `cli_range_filter`: the new `matched`, and whether the line passes. -/
def rangeFilter (matched : Bool) (fromText : List Char) (toText : Option (List Char))
    (string : List Char) : Bool × Bool :=
  let matched := if matched then true else strstr string fromText
  if matched then
    (match toText with
     | some toText => if strstr string toText then false else true
     | none => true, true)
  else (false, false)

/-- `cli_count_filter`: only lines that are not blank are counted. -/
def countFilter (n : ℕ) (string : List Char) : ℕ :=
  if string.dropWhile isSpace = [] then n else n + 1

/-- The function of a filter is called with a line. -/
def Filter.step (re : Regex) : Stage Filter (List Char)
  | .matching invert pattern, string =>
    (.matching invert pattern, matchFilter re invert pattern string)
  | .range matched fromText toText, string =>
    let (matched, pass) := rangeFilter matched fromText toText string
    (.range matched fromText toText, pass)
  | .count n, string => (.count (countFilter n string), false)

/-- The function of a filter is called to clean up. -/
def Filter.finish : Filter → List (List Char)
  | .count n => [decimal n]
  | _ => []

/-! ## Reading a filter -/

/-- The lines of a text that is printed. -/
def textLines (text : List Char) : List (List Char) := text.splitOn '\n'

def joinWords (argv : List Word) : List Char := [' '].intercalate argv

/-- `strncmp(name, word, strlen(word))` finds no difference. -/
def abbreviates (word : Word) (name : String) : Bool := word.isPrefixOf name.toList

/-- The options of `grep` in front of its pattern: `MATCH_INVERT`, `REG_ICASE`
and the arguments that are left. -/
def grepOptions : Bool → Bool → List Word → Bool × Bool × List Word
  | invert, icase, arg :: next :: argv =>
    match arg with
    | '-' :: c :: p =>
      if (c :: p).all fun c => c == 'v' || c == 'i' || c == 'e' then
        let invert := invert || (c :: p).contains 'v'
        let icase := icase || (c :: p).contains 'i'
        if (c :: p).contains 'e' then (invert, icase, next :: argv)
        else grepOptions invert icase (next :: argv)
      else (invert, icase, arg :: next :: argv)
    | _ => (invert, icase, arg :: next :: argv)
  | invert, icase, argv => (invert, icase, argv)

/-- `cli_match_filter_init`: the filter, or the lines that are written. -/
def matchFilterInit (re : Regex) : List Word → Except (List (List Char)) Filter
  | [] => .error ["Match filter requires an argument".toList]
  | [_] => .error ["Match filter requires an argument".toList]
  | cmd :: args =>
    if cmd[0]? = some 'i' ∨ (cmd[0]? = some 'e' ∧ cmd[1]? = some 'x') then
      .ok (.matching (cmd[0]? = some 'e') (.text (joinWords args)))
    else
      let extended : Bool := cmd[0]? = some 'e'
      let (invert, icase, argv) := grepOptions false false args
      if re.regcomp extended icase (joinWords argv) then
        .ok (.matching invert (.regex extended icase (joinWords argv)))
      else .error ["Invalid pattern \"".toList ++ joinWords argv ++ ['"']]

/-- `cli_range_filter_init`. -/
def rangeFilterInit : List Word → Except (List (List Char)) Filter
  | [] => .error ["Begin filter requires an argument".toList]
  | cmd :: args =>
    if cmd.take 3 = "bet".toList then
      match args with
      | fromText :: toText :: rest =>
          .ok (.range false fromText (some (joinWords (toText :: rest))))
      | _ => .error ["Between filter requires 2 arguments".toList]
    else
      match args with
      | [] => .error ["Begin filter requires an argument".toList]
      | _ => .ok (.range false (joinWords args) none)

/-- `cli_count_filter_init`. -/
def countFilterInit (argv : List Word) : Except (List (List Char)) Filter :=
  if argv.length > 1 then .error ["Count filter does not take arguments".toList]
  else .ok (.count 0)

/-- The initialisation that `cli_find_command` selects with the first word. -/
def filterInit (re : Regex) (cmd : Word) (argv : List Word) :
    Except (List (List Char)) Filter :=
  if abbreviates cmd "include" ∨ abbreviates cmd "exclude" ∨ abbreviates cmd "grep" ∨
      abbreviates cmd "egrep" then matchFilterInit re argv
  else if abbreviates cmd "begin" ∨ abbreviates cmd "between" then rangeFilterInit argv
  else if abbreviates cmd "count" then countFilterInit argv
  else .error (textLines ("Invalid filter \"".toList ++ cmd ++ ['"']))

/-- `%-20s`. -/
def padded (s : List Char) : List Char := s ++ List.replicate (20 - s.length) ' '

/-- The line of a help text. -/
def helpLine (name help : List Char) : List Char := [' ', ' '] ++ padded name ++ [' '] ++ help

def filterCmds : List (String × String) :=
  [("begin", "Begin with lines that match"),
   ("between", "Between lines that match"),
   ("count", "Count of lines"),
   ("exclude", "Exclude lines that match"),
   ("include", "Include lines that match"),
   ("grep", "Include lines that match regex (options: -v, -i, -e)"),
   ("egrep", "Include lines that match extended regex")]

/-- What is written when the last word of a filter ends with a question mark. -/
def filterHelp (argv : List Word) : List (List Char) :=
  let count : Bool := (argv.head?.bind List.head?) = some 'c'
  if argv.length = 1 then filterCmds.map fun p => helpLine p.1.toList p.2.toList
  else (if count then [] else ["  WORD".toList]) ++
    if argv.length > 2 ∨ count then ["  <cr>".toList] else []

/-- The last character of a word is a question mark.  `wild` says whether one is
found in front of an empty word. -/
def asksHelp (wild : Bool) (w : Word) : Bool :=
  match w.getLast? with
  | some c => c == '?'
  | none => wild

def isBar (w : Word) : Bool := w.head? == some '|'

/-- The words behind each bar, up to the next. -/
def barSegments : List Word → List (List Word)
  | [] => []
  | w :: ws => if isBar w then ws.takeWhile (!isBar ·) :: barSegments ws else barSegments ws

/-- The words of the filters.  A position zero in `filters` stands for none. -/
def filterWords (words : List Word) : List (List Word) :=
  if (words.head?.map isBar).getD false then [] else barSegments words

/-- The words in front of the filters, `c_words` of them. -/
def commandWords (words : List Word) : List Word :=
  if (words.head?.map isBar).getD false then words else words.takeWhile (!isBar ·)

/-- How the loop over the filters ends: the filters are set up; one of them is
not, and `rc` is `CLI_ERROR`; or `cli_find_command` returns in the loop. -/
inductive FilterSetup where
  | ready (filters : List Filter)
  | failed (filters : List Filter) (lines : List (List Char))
  | returned (filters : List Filter) (rc : ℤ) (lines : List (List Char))
deriving DecidableEq

/-- The loop over the filters at `CORRECT_CHECKS`. -/
def setupFilters (re : Regex) (wild : Bool) : List (List Word) → List Filter → FilterSetup
  | [], filters => .ready filters
  | [] :: _, filters => .returned filters (-1) ["Missing filter".toList]
  | (cmd :: args) :: rest, filters =>
    if asksHelp wild ((cmd :: args).getLast?.getD []) then
      .returned filters 0 (filterHelp (cmd :: args))
    else if cmd[0]? = some 'b' ∧ cmd.length < 3 then
      .returned filters (-1) ["Ambiguous filter \"".toList ++ cmd ++ "\" (begin, between)".toList]
    else
      match filterInit re cmd (cmd :: args) with
      | .ok filter => setupFilters re wild rest (filters ++ [filter])
      | .error lines => .failed filters lines

/-! ## What the filters let pass -/

variable (re : Regex)

/-- `include`, `exclude`, `grep` and `egrep` decide each line by itself. -/
theorem passed_matching (invert : Bool) (pattern : Pattern) (lines : List (List Char)) :
    Stage.passed (Filter.step re) (.matching invert pattern) lines =
      lines.filter (matchFilter re invert pattern) := by
  refine Stage.passed_eq_filter (Filter.step re) (P := (· = .matching invert pattern)) ?_ rfl lines
  rintro f line rfl
  exact ⟨rfl, rfl⟩

/-- A count lets nothing pass. -/
theorem passed_count (n : ℕ) (lines : List (List Char)) :
    Stage.passed (Filter.step re) (.count n) lines = [] := by
  induction lines generalizing n with
  | nil => rfl
  | cons line lines ih => exact ih (countFilter n line)

def notBlank (line : List Char) : Bool := !line.all isSpace

theorem countFilter_eq (n : ℕ) (line : List Char) :
    countFilter n line = if notBlank line then n + 1 else n := by
  rw [countFilter, notBlank]
  by_cases hblank : line.all isSpace = true
  · rw [if_pos (List.dropWhile_eq_nil_iff.mpr (List.all_eq_true.mp hblank))]
    simp [hblank]
  · rw [if_neg fun h => hblank (List.all_eq_true.mpr (List.dropWhile_eq_nil_iff.mp h))]
    simp [hblank]

/-- A count has counted the lines that are not blank. -/
theorem after_count (n : ℕ) (lines : List (List Char)) :
    Stage.after (Filter.step re) (.count n) lines = .count (n + lines.countP notBlank) := by
  induction lines generalizing n with
  | nil => rfl
  | cons line lines ih =>
      rw [Stage.after, List.countP_cons]
      change Stage.after (Filter.step re) (.count (countFilter n line)) lines = _
      rw [ih, countFilter_eq]
      split
      · rw [Nat.add_assoc, Nat.add_comm 1]
      · rfl

/-- A line is in the range: one up to it has the first text, and none from there
to the one before it has the second. -/
def InRange (fromText : List Char) (toText : Option (List Char)) (pre : List (List Char))
    (line : List Char) : Prop :=
  ∃ out first rest, pre ++ [line] = out ++ first :: rest ∧ strstr first fromText = true ∧
    ∀ l ∈ (first :: rest).dropLast, ∀ text ∈ toText, strstr l text = false

/-- The last line of a range that is longer than one line. -/
theorem inRange_append_singleton (fromText : List Char) (toText : Option (List Char))
    (pre : List (List Char)) (last line : List Char) :
    InRange fromText toText (pre ++ [last]) line ↔
      strstr line fromText = true ∨
        InRange fromText toText pre last ∧ ∀ text ∈ toText, strstr last text = false := by
  constructor
  · rintro ⟨out, first, rest, hlines, hfirst, hrest⟩
    rcases List.eq_nil_or_concat rest with rfl | ⟨rest, l, rfl⟩
    · obtain ⟨-, hline⟩ := List.append_inj' hlines rfl
      rw [List.cons.injEq] at hline
      exact .inl (hline.1 ▸ hfirst)
    · have hsplit : (pre ++ [last]) ++ [line] = (out ++ first :: rest) ++ [l] := by
        simpa using hlines
      obtain ⟨hpre, -⟩ := List.append_inj' hsplit rfl
      have hdrop : (first :: (rest ++ [l])).dropLast = first :: rest := by
        rw [← List.cons_append, List.dropLast_concat]
      rw [List.concat_eq_append, hdrop] at hrest
      refine .inr ⟨⟨out, first, rest, hpre, hfirst, fun l hl => ?_⟩, ?_⟩
      · exact hrest l ((List.dropLast_sublist _).subset hl)
      · refine hrest last ?_
        have hlast : (out ++ first :: rest).getLast? = some last := by
          rw [← hpre, List.getLast?_concat]
        rw [List.getLast?_append, List.getLast?_cons] at hlast
        exact List.mem_of_getLast? (by simpa [List.getLast?_cons] using hlast)
  · rintro (hline | ⟨⟨out, first, rest, hlines, hfirst, hrest⟩, hlast⟩)
    · exact ⟨pre ++ [last], line, [], rfl, hline, by simp⟩
    · refine ⟨out, first, rest ++ [line], by rw [hlines, List.append_assoc, List.cons_append],
        hfirst, ?_⟩
      rw [← List.cons_append, List.dropLast_concat]
      intro l hl
      have hends : (first :: rest).getLast? = some last := by
        have h : (out ++ first :: rest).getLast? = some last := by
          rw [← hlines, List.getLast?_concat]
        simpa [List.getLast?_append, List.getLast?_cons] using h
      rw [← List.dropLast_append_getLast? last hends, List.mem_append,
        List.mem_singleton] at hl
      rcases hl with hl | rfl
      · exact hrest l hl
      · exact hlast

theorem inRange_nil (fromText : List Char) (toText : Option (List Char)) (line : List Char) :
    InRange fromText toText [] line ↔ strstr line fromText = true := by
  constructor
  · rintro ⟨out, first, rest, hlines, hfirst, -⟩
    rcases List.append_eq_singleton_iff.mp hlines.symm with ⟨-, h⟩ | ⟨-, h⟩
    · rw [List.cons.injEq] at h
      exact h.1 ▸ hfirst
    · exact absurd h (List.cons_ne_nil first rest)
  · exact fun h => ⟨[], line, [], rfl, h, by simp⟩

theorem rangeFilter_snd (matched : Bool) (fromText : List Char) (toText : Option (List Char))
    (line : List Char) :
    (rangeFilter matched fromText toText line).2 = (matched || strstr line fromText) := by
  cases matched with
  | true => simp [rangeFilter]
  | false => cases hfound : strstr line fromText <;> simp [rangeFilter, hfound]

/-- The range stays open behind a line that passes and does not have the second text. -/
theorem rangeFilter_fst (matched : Bool) (fromText : List Char) (toText : Option (List Char))
    (line : List Char) :
    (rangeFilter matched fromText toText line).1 = true ↔
      (rangeFilter matched fromText toText line).2 = true ∧
        ∀ text ∈ toText, strstr line text = false := by
  rw [rangeFilter_snd]
  cases matched with
  | true => cases toText <;> simp [rangeFilter]
  | false =>
      cases hfound : strstr line fromText with
      | false => simp [rangeFilter, hfound]
      | true => cases toText <;> simp [rangeFilter, hfound]

theorem after_range (matched : Bool) (fromText : List Char) (toText : Option (List Char))
    (lines : List (List Char)) :
    ∃ matched', Stage.after (Filter.step re) (.range matched fromText toText) lines =
      .range matched' fromText toText := by
  induction lines generalizing matched with
  | nil => exact ⟨matched, rfl⟩
  | cons line lines ih => exact ih _

/-- `begin` and `between` let exactly the lines in the range pass. -/
theorem range_passes_iff (fromText : List Char) (toText : Option (List Char))
    (pre : List (List Char)) (line : List Char) :
    (Filter.step re (Stage.after (Filter.step re) (.range false fromText toText) pre) line).2 =
      true ↔ InRange fromText toText pre line := by
  induction pre using List.reverseRecOn generalizing line with
  | nil =>
      rw [inRange_nil]
      change (rangeFilter false fromText toText line).2 = true ↔ _
      rw [rangeFilter_snd, Bool.false_or]
  | append_singleton pre last ih =>
      obtain ⟨matched, hafter⟩ := after_range re false fromText toText pre
      have hlast := ih last
      rw [hafter] at hlast
      rw [inRange_append_singleton, ← hlast, Stage.after_append, hafter]
      change (rangeFilter (rangeFilter matched fromText toText last).1 fromText toText line).2 =
        true ↔ _
      rw [rangeFilter_snd, Bool.or_eq_true, rangeFilter_fst]
      exact or_comm

/-! ## What the filters are for -/

open Classical in
/-- The lines that a filter is meant to let pass. -/
noncomputable def Filter.chosen : Filter → List (List Char) → List (List Char)
  | .matching invert pattern, lines => lines.filter (matchFilter re invert pattern)
  | .range _ fromText toText, lines =>
    keepWhere (fun pre line => decide (InRange fromText toText pre line)) [] lines
  | .count _, _ => []

/-- What a filter is meant to write at the end. -/
def Filter.total : Filter → List (List Char) → List (List Char)
  | .count _, lines => [decimal (lines.countP notBlank)]
  | _, _ => []

/-- The filters as `cli_find_command` sets them up. -/
def Filter.Initial : Filter → Prop
  | .matching _ _ => True
  | .range matched _ _ => matched = false
  | .count n => n = 0

theorem passed_eq_chosen {f : Filter} (hf : f.Initial) (lines : List (List Char)) :
    Stage.passed (Filter.step re) f lines = f.chosen re lines := by
  cases f with
  | matching invert pattern => exact passed_matching re invert pattern lines
  | count n => exact passed_count re n lines
  | range matched fromText toText =>
      rw [Filter.Initial] at hf
      subst hf
      classical
      refine Stage.passed_eq_keepWhere (Filter.step re) (.range false fromText toText)
        (fun pre line => ?_) [] lines
      rw [Bool.eq_iff_iff, decide_eq_true_iff]
      exact range_passes_iff re fromText toText pre line

theorem finish_after_eq_total {f : Filter} (hf : f.Initial) (lines : List (List Char)) :
    (Stage.after (Filter.step re) f lines).finish = f.total lines := by
  cases f with
  | matching invert pattern =>
      have hsame : ∀ lines, Stage.after (Filter.step re) (.matching invert pattern) lines =
          .matching invert pattern := by
        intro lines
        induction lines with
        | nil => rfl
        | cons line lines ih => exact ih
      rw [hsame]
      rfl
  | count n =>
      rw [Filter.Initial] at hf
      rw [after_count, hf, Nat.zero_add]
      rfl
  | range matched fromText toText =>
      obtain ⟨matched', hafter⟩ := after_range re matched fromText toText lines
      rw [hafter]
      rfl

/-- The lines that come out of the filters, and what is written at the end. -/
noncomputable def chosenAll : List Filter → List (List Char) → List (List Char) × List (List Char)
  | [], lines => (lines, [])
  | f :: filters, lines =>
    ((chosenAll filters (f.chosen re lines)).1,
      f.total lines ++ (chosenAll filters (f.chosen re lines)).2)

/-- The filters of a command do, line by line, what they are meant to do with the
whole output. -/
theorem feedAll_eq_chosenAll {filters : List Filter} (hfilters : ∀ f ∈ filters, f.Initial)
    (lines : List (List Char)) :
    (feedAll (Filter.step re) filters lines).2 = (chosenAll re filters lines).1 ∧
      (feedAll (Filter.step re) filters lines).1.flatMap Filter.finish =
        (chosenAll re filters lines).2 := by
  induction filters generalizing lines with
  | nil => simp [feedAll_nil_stages, chosenAll]
  | cons f filters ih =>
      obtain ⟨hf, hfilters⟩ := List.forall_mem_cons.mp hfilters
      rw [feedAll_cons_stages, passed_eq_chosen re hf, List.flatMap_cons,
        finish_after_eq_total re hf, chosenAll]
      obtain ⟨hlines, htotals⟩ := ih hfilters (f.chosen re lines)
      exact ⟨hlines, congrArg (f.total lines ++ ·) htotals⟩

/-! ## Filters as they are set up -/

theorem filterInit_initial {cmd : Word} {argv : List Word} {f : Filter}
    (h : filterInit re cmd argv = .ok f) : f.Initial := by
  rw [filterInit] at h
  split at h
  · unfold matchFilterInit at h
    split at h
    · cases h
    · cases h
    · split at h
      · cases h
        trivial
      · dsimp only at h
        split at h
        · cases h
          trivial
        · cases h
  · split at h
    · unfold rangeFilterInit at h
      split at h
      · cases h
      · split at h
        · split at h
          · cases h
            rfl
          · cases h
        · split at h
          · cases h
          · cases h
            rfl
    · split at h
      · rw [countFilterInit] at h
        split at h
        · cases h
        · cases h
          rfl
      · cases h

/-- The filters that are set up, however the loop over them ends. -/
def FilterSetup.filters : FilterSetup → List Filter
  | .ready filters => filters
  | .failed filters _ => filters
  | .returned filters _ _ => filters

theorem setupFilters_initial (wild : Bool) (segments : List (List Word)) {filters : List Filter}
    (hfilters : ∀ f ∈ filters, f.Initial) :
    ∀ f ∈ (setupFilters re wild segments filters).filters, f.Initial := by
  induction segments generalizing filters with
  | nil => exact hfilters
  | cons argv segments ih =>
      cases argv with
      | nil => exact hfilters
      | cons cmd args =>
          rw [setupFilters]
          split
          · exact hfilters
          · split
            · exact hfilters
            · split
              · next f hinit =>
                  refine ih fun g hg => ?_
                  rcases List.mem_append.mp hg with hg | hg
                  · exact hfilters g hg
                  · exact List.mem_singleton.mp hg ▸ filterInit_initial re hinit
              · exact hfilters

end EceLib.Cli
