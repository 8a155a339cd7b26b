import EceLib.Rule.Tokens
import Mathlib.Data.List.TakeWhile

/-!
# The words of a command line

`cli_parse_line` of `lib/cli.c`.  A word is delimited by blanks or quoted, and
a bar outside quotes is a word of its own.  A quote starts a new word wherever
it stands, so what stood directly in front of it is lost; a line that begins
with a bar begins with an empty word.
-/

namespace EceLib.Cli

open Rule (isSpace isSpace_iff)

/-! ## The scanner -/

def isQuote (c : Char) : Bool := c == '"' || c == '\''

/-- `word_start` with the characters since then, and `inquote`. -/
inductive Scan where
  /-- no word has begun -/
  | gap
  | word (w : List Char)
  | quoted (inquote : Char) (w : List Char)
deriving DecidableEq

/-- The word that ends at the terminator. -/
def Scan.rest : Scan → List (List Char)
  | .gap => []
  | .word w => [w]
  | .quoted _ w => [w]

/-- The second loop of `cli_parse_line`, with room for `room` words.  The
character behind a word is looked at once more. -/
def parseLoop : ℕ → Scan → List Char → List (List Char)
  | 0, _, _ => []
  | _ + 1, scan, [] => scan.rest
  | room + 1, .gap, c :: s =>
    if isQuote c then parseLoop (room + 1) (.quoted c []) s
    else if c = '|' then ['|'] :: parseLoop room .gap s
    else if isSpace c then parseLoop (room + 1) .gap s
    else parseLoop (room + 1) (.word [c]) s
  | room + 1, .word w, c :: s =>
    if isSpace c then w :: parseLoop room .gap s
    else if c = '|' then
      match room with
      | 0 => [w]
      | room + 1 => w :: ['|'] :: parseLoop room .gap s
    else if isQuote c then parseLoop (room + 1) (.quoted c []) s
    else parseLoop (room + 1) (.word (w ++ [c])) s
  | room + 1, .quoted q w, c :: s =>
    if c = q then w :: parseLoop room .gap s
    else if isQuote c then parseLoop (room + 1) (.quoted c []) s
    else parseLoop (room + 1) (.quoted q (w ++ [c])) s

/-- `cli_parse_line`: the first loop lets a word begin at the first character
that is not blank, whatever it is. -/
def parseLine (line : List Char) (maxWords : ℕ) : List (List Char) :=
  match line.dropWhile isSpace with
  | [] => []
  | c :: s => parseLoop (maxWords - 1) (.word []) (c :: s)

/-! ## The characters of a word -/

theorem parseLoop_chars (room : ℕ) (scan : Scan) (s : List Char) {w : List Char}
    (hw : w ∈ parseLoop room scan s) {a : Char} (ha : a ∈ w) :
    (∃ v ∈ scan.rest, a ∈ v) ∨ a ∈ s := by
  fun_induction parseLoop room scan s <;> grind [Scan.rest]

/-- No word has a character that the line does not have. -/
theorem parseLine_chars {line : List Char} {maxWords : ℕ} {w : List Char}
    (hw : w ∈ parseLine line maxWords) {a : Char} (ha : a ∈ w) : a ∈ line := by
  rw [parseLine] at hw
  split at hw
  · simp at hw
  · next c s hdrop =>
      rcases parseLoop_chars _ _ _ hw ha with ⟨v, hv, hav⟩ | hmem
      · rw [Scan.rest, List.mem_singleton] at hv
        simp [hv] at hav
      · exact (List.dropWhile_suffix isSpace).subset (hdrop ▸ hmem)

/-! ## Words as they are written -/

/-- How a word can stand in a line. -/
inductive Item where
  | bare (w : List Char)
  | quoted (quote : Char) (w : List Char)
  | bar
deriving DecidableEq

def Item.text : Item → List Char
  | .bare w => w
  | .quoted quote w => quote :: (w ++ [quote])
  | .bar => ['|']

def Item.word : Item → List Char
  | .bare w => w
  | .quoted _ w => w
  | .bar => ['|']

/-- No character of a bare word ends it, and neither quote stands within quotes. -/
def Item.Valid : Item → Prop
  | .bare w => w ≠ [] ∧ ∀ c ∈ w, isSpace c = false ∧ c ≠ '|' ∧ isQuote c = false
  | .quoted quote w => isQuote quote = true ∧ ∀ c ∈ w, isQuote c = false
  | .bar => True

def Item.isBare : Item → Bool
  | .bare _ => true
  | _ => false

def Item.isBar : Item → Bool
  | .bar => true
  | _ => false

/-- The items with the blanks behind each. -/
def lineText (items : List (Item × List Char)) : List Char :=
  items.flatMap fun p => p.1.text ++ p.2

/-- Only blanks stand between the items, and there are some behind a bare word
unless a bar or the end follows. -/
def Spaced : List (Item × List Char) → Prop
  | [] => True
  | (item, gap) :: rest =>
    item.Valid ∧ (∀ c ∈ gap, isSpace c = true) ∧
      (item.isBare = true → gap = [] → ∀ p ∈ rest.head?, p.1.isBar = true) ∧ Spaced rest

/-! ## Reading the words back -/

theorem isQuote_cases {c : Char} (h : isQuote c = true) : c = '"' ∨ c = '\'' := by
  simpa [isQuote] using h

theorem not_isSpace_of_isQuote {c : Char} (h : isQuote c = true) : isSpace c = false := by
  rcases isQuote_cases h with rfl | rfl <;> rfl

theorem ne_bar_of_isQuote {c : Char} (h : isQuote c = true) : c ≠ '|' := by
  rcases isQuote_cases h with rfl | rfl <;> decide

theorem isQuote_of_isSpace {c : Char} (h : isSpace c = true) : isQuote c = false := by
  by_contra hq
  rw [Bool.not_eq_false] at hq
  simp [not_isSpace_of_isQuote hq] at h

theorem ne_bar_of_isSpace {c : Char} (h : isSpace c = true) : c ≠ '|' := by
  rintro rfl
  exact absurd h (by decide)

theorem parseLoop_zero (scan : Scan) (s : List Char) : parseLoop 0 scan s = [] := by
  cases scan <;> cases s <;> rfl

theorem parseLoop_blank (room : ℕ) {c : Char} (s : List Char) (hc : isSpace c = true) :
    parseLoop room .gap (c :: s) = parseLoop room .gap s := by
  cases room with
  | zero => simp [parseLoop_zero]
  | succ room =>
      simp [parseLoop, isQuote_of_isSpace hc, ne_bar_of_isSpace hc, hc]

theorem parseLoop_blanks (room : ℕ) (gap s : List Char) (hgap : ∀ c ∈ gap, isSpace c = true) :
    parseLoop room .gap (gap ++ s) = parseLoop room .gap s := by
  induction gap with
  | nil => rfl
  | cons c gap ih =>
      obtain ⟨hc, hgap⟩ := List.forall_mem_cons.mp hgap
      rw [List.cons_append, parseLoop_blank room _ hc, ih hgap]

/-- A word grows up to the character that ends it. -/
theorem parseLoop_word (room : ℕ) (w v s : List Char)
    (hv : ∀ c ∈ v, isSpace c = false ∧ c ≠ '|' ∧ isQuote c = false) :
    parseLoop (room + 1) (.word w) (v ++ s) = parseLoop (room + 1) (.word (w ++ v)) s := by
  induction v generalizing w with
  | nil => simp
  | cons c v ih =>
      obtain ⟨⟨hspace, hbar, hquote⟩, hv⟩ := List.forall_mem_cons.mp hv
      have hstep : parseLoop (room + 1) (.word w) (c :: (v ++ s)) =
          parseLoop (room + 1) (.word (w ++ [c])) (v ++ s) := by
        simp [parseLoop, hspace, hbar, hquote]
      rw [List.cons_append, hstep, ih (w ++ [c]) hv, List.append_assoc, List.singleton_append]

/-- Within quotes a word grows up to the next quote. -/
theorem parseLoop_quoted (room : ℕ) {q : Char} (w v s : List Char) (hq : isQuote q = true)
    (hv : ∀ c ∈ v, isQuote c = false) :
    parseLoop (room + 1) (.quoted q w) (v ++ q :: s) = (w ++ v) :: parseLoop room .gap s := by
  induction v generalizing w with
  | nil => simp [parseLoop]
  | cons c v ih =>
      obtain ⟨hc, hv⟩ := List.forall_mem_cons.mp hv
      have hne : c ≠ q := by
        rintro rfl
        simp [hq] at hc
      have hstep : parseLoop (room + 1) (.quoted q w) (c :: (v ++ q :: s)) =
          parseLoop (room + 1) (.quoted q (w ++ [c])) (v ++ q :: s) := by
        simp [parseLoop, hne, hc]
      rw [List.cons_append, hstep, ih (w ++ [c]) hv, List.append_assoc, List.singleton_append]

/-- A word ends at a blank, at a bar and at the end, and the scanner goes on as
if it stood in a gap there. -/
theorem parseLoop_word_end (room : ℕ) (w : List Char) {s : List Char}
    (hs : ∀ c ∈ s.head?, isSpace c = true ∨ c = '|') :
    parseLoop (room + 1) (.word w) s = w :: parseLoop room .gap s := by
  cases s with
  | nil => cases room <;> rfl
  | cons c s =>
      rcases hs c rfl with hspace | rfl
      · rw [parseLoop_blank room s hspace]
        simp [parseLoop, hspace]
      · have hspace : isSpace '|' = false := by decide
        have hquote : isQuote '|' = false := by decide
        cases room with
        | zero => simp [parseLoop, hspace]
        | succ room => simp [parseLoop, hspace, hquote]

/-- Behind a bare word stands what ends it. -/
theorem head_of_bare {item : Item} {gap : List Char} {rest : List (Item × List Char)}
    (h : Spaced ((item, gap) :: rest)) (hbare : item.isBare = true) :
    ∀ c ∈ (gap ++ lineText rest).head?, isSpace c = true ∨ c = '|' := by
  obtain ⟨_, hblank, hapart, _⟩ := h
  intro c hc
  cases gap with
  | cons d gap =>
      rw [List.cons_append, List.head?_cons, Option.mem_some_iff] at hc
      exact .inl (hblank c (hc ▸ List.mem_cons_self))
  | nil =>
      cases rest with
      | nil => simp [lineText] at hc
      | cons p rest =>
          obtain ⟨next, gap'⟩ := p
          have hbar := hapart hbare rfl (next, gap') rfl
          cases next with
          | bar =>
              right
              simpa [lineText, Item.text, eq_comm] using hc
          | bare w => simp [Item.isBar] at hbar
          | quoted quote w => simp [Item.isBar] at hbar

theorem parseLoop_item (room : ℕ) {item : Item} {gap : List Char} {rest : List (Item × List Char)}
    (h : Spaced ((item, gap) :: rest)) :
    parseLoop (room + 1) .gap (item.text ++ (gap ++ lineText rest)) =
      item.word :: parseLoop room .gap (gap ++ lineText rest) := by
  have hend := head_of_bare h
  have hvalid : item.Valid := h.1
  cases item with
  | bare w =>
      obtain ⟨hne, hw⟩ := hvalid
      obtain ⟨c, w, rfl⟩ := List.exists_cons_of_ne_nil hne
      obtain ⟨⟨hspace, hbar, hquote⟩, hw⟩ := List.forall_mem_cons.mp hw
      have hfirst : ∀ s, parseLoop (room + 1) .gap (c :: s) =
          parseLoop (room + 1) (.word [c]) s := by
        intro s
        simp [parseLoop, hspace, hbar, hquote]
      rw [Item.text, List.cons_append, hfirst, parseLoop_word room [c] w _ hw,
        parseLoop_word_end room _ (hend rfl), List.singleton_append, Item.word]
  | quoted quote w =>
      obtain ⟨hq, hw⟩ := hvalid
      have hfirst : ∀ s, parseLoop (room + 1) .gap (quote :: s) =
          parseLoop (room + 1) (.quoted quote []) s := by
        intro s
        simp [parseLoop, hq]
      rw [Item.text, List.cons_append, hfirst, List.append_assoc, List.singleton_append,
        parseLoop_quoted room [] w _ hq hw, List.nil_append, Item.word]
  | bar =>
      have hquote : isQuote '|' = false := by decide
      simp [Item.text, Item.word, parseLoop, hquote]

theorem parseLoop_lineText (room : ℕ) {items : List (Item × List Char)} (h : Spaced items) :
    parseLoop room .gap (lineText items) = (items.map fun p => p.1.word).take room := by
  induction items generalizing room with
  | nil => cases room <;> rfl
  | cons p items ih =>
      obtain ⟨item, gap⟩ := p
      cases room with
      | zero => rw [parseLoop_zero, List.take_zero]
      | succ room =>
          have hitem := parseLoop_item room h
          obtain ⟨_, hblank, _, hrest⟩ := h
          have htext : lineText ((item, gap) :: items) =
              item.text ++ (gap ++ lineText items) := by
            simp [lineText]
          rw [htext, hitem, parseLoop_blanks room _ _ hblank, ih room hrest, List.map_cons,
            List.take_succ_cons]

/-- A word that begins with the line is found as it is behind a gap, a bar excepted. -/
theorem parseLoop_word_nil (room : ℕ) {c : Char} (s : List Char) (hspace : isSpace c = false)
    (hbar : c ≠ '|') : parseLoop room (.word []) (c :: s) = parseLoop room .gap (c :: s) := by
  cases room with
  | zero => simp [parseLoop_zero]
  | succ room => by_cases hquote : isQuote c = true <;> simp [parseLoop, hspace, hbar, hquote]

theorem Item.Valid.head {item : Item} (h : item.Valid) (hbar : item.isBar = false) :
    ∃ c s, item.text = c :: s ∧ isSpace c = false ∧ c ≠ '|' := by
  cases item with
  | bare w =>
      obtain ⟨hne, hw⟩ := h
      obtain ⟨c, w, rfl⟩ := List.exists_cons_of_ne_nil hne
      obtain ⟨hspace, hbar, _⟩ := hw c List.mem_cons_self
      exact ⟨c, w, rfl, hspace, hbar⟩
  | quoted quote w =>
      obtain ⟨hq, _⟩ := h
      exact ⟨quote, w ++ [quote], rfl, not_isSpace_of_isQuote hq, ne_bar_of_isQuote hq⟩
  | bar => simp [Item.isBar] at hbar

theorem dropWhile_blanks {lead s : List Char} {c : Char} (hlead : ∀ d ∈ lead, isSpace d = true)
    (hc : isSpace c = false) : (lead ++ c :: s).dropWhile isSpace = c :: s := by
  induction lead with
  | nil => simp [hc]
  | cons d lead ih =>
      obtain ⟨hd, hlead⟩ := List.forall_mem_cons.mp hlead
      rw [List.cons_append, List.dropWhile_cons_of_pos hd, ih hlead]

/-- The words of a line are found however they are written, up to the last for
which there is room, if the line does not begin with a bar. -/
theorem parseLine_lineText (lead : List Char) {items : List (Item × List Char)} (maxWords : ℕ)
    (hlead : ∀ c ∈ lead, isSpace c = true) (hitems : Spaced items)
    (hfirst : ∀ p ∈ items.head?, p.1.isBar = false) :
    parseLine (lead ++ lineText items) maxWords =
      (items.map fun p => p.1.word).take (maxWords - 1) := by
  cases items with
  | nil =>
      have hblank : (lead ++ lineText []).dropWhile isSpace = [] := by
        rw [lineText, List.flatMap_nil, List.append_nil]
        exact List.dropWhile_eq_nil_iff.mpr hlead
      simp [parseLine, hblank]
  | cons p items =>
      obtain ⟨item, gap⟩ := p
      obtain ⟨c, s, htext, hspace, hbar⟩ := hitems.1.head (hfirst (item, gap) rfl)
      have hline : lineText ((item, gap) :: items) = c :: (s ++ (gap ++ lineText items)) := by
        simp [lineText, htext]
      have hdrop : (lead ++ lineText ((item, gap) :: items)).dropWhile isSpace =
          lineText ((item, gap) :: items) := by
        rw [hline]
        exact dropWhile_blanks hlead hspace
      rw [← parseLoop_lineText (maxWords - 1) hitems, parseLine, hdrop, hline]
      exact parseLoop_word_nil (maxWords - 1) _ hspace hbar

example : parseLine ("  show \"a b\"|grep -v x ".toList) 128 =
    ["show", "a b", "|", "grep", "-v", "x"].map String.toList := by
  decide +kernel

example : parseLine "ab\"c\"".toList 128 = ["c".toList] := by decide

example : parseLine "|c".toList 128 = [[], ['|'], ['c']] := by decide

end EceLib.Cli
