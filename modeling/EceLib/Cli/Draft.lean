import EceLib.Cli.Editor
import EceLib.Support.Zipper

/-!
# The line editor is an editor of a text

A draft is the text of a line with a cursor, and each key changes it as a user
expects.  While the text has at most 1365 characters, a third of the buffer,
the line editor holds the draft in its buffer and stays within it.
-/

namespace EceLib.Cli

open Support

/-! ## What the keys mean -/

/-- The text of a line, and what the history and completion keys remember. -/
structure Draft where
  line : Zipper Char
  inHistory : ℤ
  lastchar : Char

def Draft.blank : Draft := ⟨⟨[], []⟩, 0, '\x00'⟩

/-- What a key leads to. -/
inductive Drafted where
  | more (d : Draft)
  | leaves (d : Draft)
  | enter (d : Draft)
  | asks (d : Draft)
  | closed

/-- The word in front of the cursor is removed. -/
def backWord (z : Zipper Char) : Zipper Char :=
  ⟨(z.before.rdropWhile (· == ' ')).rdropWhile (· != ' '), z.after⟩

/-- The last word of a text is replaced. -/
def completed (text completion : List Char) : List Char :=
  (text.rdropWhile fun c => c != ' ' && c != '|') ++ completion ++ [' ']

variable (ctx : Context)

def draftTab (d : Draft) : Draft :=
  if ctx.login ∨ d.line.after ≠ [] then d
  else
    match ctx.completions d.line.text with
    | [] => d
    | [completion] => { d with line := .ofText (completed d.line.text completion) }
    | _ => { d with lastchar := CTRL 'I' }

def draftHistory (d : Draft) (up : Bool) : Draft :=
  if ctx.login then d
  else
    { d with
      inHistory := (historyKey ctx d.inHistory up).1
      line :=
        match (historyKey ctx d.inHistory up).2 with
        | none => d.line
        | some cmd => .ofText (cmd.take (CLI_MAX_LINE_LENGTH - 1)) }

def draftType (d : Draft) (c : Char) : Drafted :=
  if c = '?' ∧ d.line.after = [] then .asks { d with line := d.line.insert c }
  else .more { d with line := d.line.insert c, lastchar := c }

/-- A key at a prompt for commands or for a name. -/
def draftKey (d : Draft) (c : Char) : Drafted :=
  if c = '\x00' ∨ c = '\n' then .more d
  else if c = '\r' then .enter d
  else if c = CTRL 'C' then .more d
  else if c = CTRL 'W' then .more { d with line := backWord d.line }
  else if c = CTRL 'H' ∨ c = '\x7f' then .more { d with line := d.line.back }
  else if c = CTRL 'L' then .more d
  else if c = CTRL 'U' then .more { d with line := ⟨[], []⟩ }
  else if c = CTRL 'K' then .more { d with line := d.line.kill }
  else if c = CTRL 'D' then if d.line.text ≠ [] then .more d else .closed
  else if c = CTRL 'Z' then if ctx.configuring then .leaves d else .more d
  else if c = CTRL 'I' then .more (draftTab ctx d)
  else if c = CTRL 'P' ∨ c = CTRL 'N' then .more (draftHistory ctx d (c = CTRL 'P'))
  else if c = CTRL 'B' then .more { d with line := d.line.left }
  else if c = CTRL 'F' then .more { d with line := d.line.right }
  else if c = CTRL 'A' then .more { d with line := d.line.home }
  else if c = CTRL 'E' then .more { d with line := d.line.toEnd }
  else draftType d c

/-- The kinds of keys, each with what the editor and what a draft does on it. -/
inductive KeyCase (ctx : Context) (ed : Editor) (d : Draft) (c : Char) :
    Option Outcome → Drafted → Prop
  | skip : KeyCase ctx ed d c (some (.more [] ed)) (.more d)
  | enter : KeyCase ctx ed d c (some (.enter (if ctx.secret then [] else ['\r', '\n']) ed))
      (.enter d)
  | interrupt : KeyCase ctx ed d c (some (.more [bell] ed)) (.more d)
  | back : KeyCase ctx ed d c (backKey ctx ed c)
      (.more { d with line := if c = CTRL 'W' then backWord d.line else d.line.back })
  | redraw : KeyCase ctx ed d c (some (.more (if ctx.secret then [] else promptLine ctx ed) ed))
      (.more d)
  | clear : KeyCase ctx ed d c (clearKey ctx ed) (.more { d with line := ⟨[], []⟩ })
  | kill : KeyCase ctx ed d c (killKey ctx ed) (.more { d with line := d.line.kill })
  | close : KeyCase ctx ed d c
      (if ctx.secret then some (.enter [] ed) else if ed.l ≠ 0 then some (.more [] ed)
        else some .closed)
      (if d.line.text ≠ [] then .more d else .closed)
  | leave (h : c = CTRL 'Z') : KeyCase ctx ed d c (leaveKey ctx ed)
      (if ctx.configuring then .leaves d else .more d)
  | tab (h : c = CTRL 'I') : KeyCase ctx ed d c (tabKey ctx ed) (.more (draftTab ctx d))
  | history (up : Bool) : KeyCase ctx ed d c (historyStep ctx ed up)
      (.more (draftHistory ctx d up))
  | move : KeyCase ctx ed d c (some (moveKey ctx ed c))
      (.more { d with
        line := if c = CTRL 'B' then d.line.left else if c = CTRL 'F' then d.line.right
          else if c = CTRL 'A' then d.line.home else d.line.toEnd })
  | type (h : c ≠ '\x00') : KeyCase ctx ed d c (typeKey ctx ed c) (draftType d c)

/-- The editor and the draft test a key in the same order. -/
theorem key_cases (ctx : Context) (ed : Editor) (d : Draft) (c : Char) :
    KeyCase ctx ed d c (handleKey ctx ed c) (draftKey ctx d c) := by
  rw [handleKey, draftKey]
  by_cases h1 : c = '\x00' ∨ c = '\n'
  · rw [if_pos h1, if_pos h1]
    exact .skip
  rw [if_neg h1, if_neg h1]
  by_cases h2 : c = '\r'
  · rw [if_pos h2, if_pos h2]
    exact .enter
  rw [if_neg h2, if_neg h2]
  by_cases h3 : c = CTRL 'C'
  · rw [if_pos h3, if_pos h3]
    exact .interrupt
  rw [if_neg h3, if_neg h3]
  have hback := @KeyCase.back ctx ed d c
  by_cases hw : c = CTRL 'W'
  · rw [if_pos hw] at hback
    rw [if_pos (.inl hw), if_pos hw]
    exact hback
  rw [if_neg hw] at hback
  by_cases hh : c = CTRL 'H' ∨ c = '\x7f'
  · rw [if_pos (.inr hh), if_neg hw, if_pos hh]
    exact hback
  rw [if_neg (by rw [not_or]; exact ⟨hw, hh⟩), if_neg hw, if_neg hh]
  by_cases h4 : c = CTRL 'L'
  · rw [if_pos h4, if_pos h4]
    exact .redraw
  rw [if_neg h4, if_neg h4]
  by_cases h5 : c = CTRL 'U'
  · rw [if_pos h5, if_pos h5]
    exact .clear
  rw [if_neg h5, if_neg h5]
  by_cases h6 : c = CTRL 'K'
  · rw [if_pos h6, if_pos h6]
    exact .kill
  rw [if_neg h6, if_neg h6]
  by_cases h7 : c = CTRL 'D'
  · rw [if_pos h7, if_pos h7]
    exact .close
  rw [if_neg h7, if_neg h7]
  by_cases h8 : c = CTRL 'Z'
  · rw [if_pos h8, if_pos h8]
    exact .leave h8
  rw [if_neg h8, if_neg h8]
  by_cases h9 : c = CTRL 'I'
  · rw [if_pos h9, if_pos h9]
    exact .tab h9
  rw [if_neg h9, if_neg h9]
  by_cases h10 : c = CTRL 'P' ∨ c = CTRL 'N'
  · rw [if_pos h10, if_pos h10]
    exact .history _
  rw [if_neg h10, if_neg h10]
  have hmove := @KeyCase.move ctx ed d c
  by_cases hb : c = CTRL 'B'
  · rw [if_pos hb] at hmove
    rw [if_pos (.inl hb), if_pos hb]
    exact hmove
  rw [if_neg hb] at hmove
  by_cases hf : c = CTRL 'F'
  · rw [if_pos hf] at hmove
    rw [if_pos (.inr (.inl hf)), if_neg hb, if_pos hf]
    exact hmove
  rw [if_neg hf] at hmove
  by_cases ha : c = CTRL 'A'
  · rw [if_pos ha] at hmove
    rw [if_pos (.inr (.inr (.inl ha))), if_neg hb, if_neg hf, if_pos ha]
    exact hmove
  rw [if_neg ha] at hmove
  by_cases he : c = CTRL 'E'
  · rw [if_pos (.inr (.inr (.inr he))), if_neg hb, if_neg hf, if_neg ha, if_pos he]
    exact hmove
  rw [if_neg (by simp [hb, hf, ha, he]), if_neg hb, if_neg hf, if_neg ha, if_neg he]
  exact .type fun hz => h1 (.inl hz)

/-! ## The buffer holds the draft -/

/-- The buffer has the text, and zeros behind it. -/
structure Holds (ed : Editor) (d : Draft) : Prop where
  l : ed.l = d.line.text.length
  cursor : ed.cursor = d.line.before.length
  cmd : ∀ k < CLI_MAX_LINE_LENGTH, ed.cmd k = (d.line.text[k]?).getD '\x00'
  plain : '\x00' ∉ d.line.text
  inHistory : ed.inHistory = d.inHistory
  lastchar : ed.lastchar = d.lastchar

theorem holds_blank : Holds .blank .blank where
  l := rfl
  cursor := rfl
  cmd := fun _ _ => rfl
  plain := by simp [Draft.blank, Zipper.text]
  inHistory := rfl
  lastchar := rfl

section Holds

variable {ctx : Context} {ed : Editor} {d : Draft}

theorem Holds.bytes (h : Holds ed d) (hfit : d.line.text.length ≤ CLI_MAX_LINE_LENGTH) {i n : ℕ}
    (hin : i + n ≤ d.line.text.length) : ed.bytes i n = (d.line.text.drop i).take n := by
  apply List.ext_getElem
  · simp only [Editor.bytes, List.length_map, List.length_range, List.length_take,
      List.length_drop]
    omega
  · intro k hk _
    have hk : k < n := by simpa [Editor.bytes] using hk
    have hget := h.cmd (i + k) (by omega)
    rw [List.getElem?_eq_getElem (by omega), Option.getD_some] at hget
    simp [Editor.bytes, hget]

theorem Holds.before (h : Holds ed d) (hfit : d.line.text.length ≤ CLI_MAX_LINE_LENGTH) :
    ed.bytes 0 ed.cursor = d.line.before := by
  have hlen := d.line.length_text
  rw [h.bytes hfit (by rw [h.cursor]; omega), h.cursor, List.drop_zero, Zipper.text,
    List.take_left]

/-- The string in the buffer is the text. -/
theorem Holds.str (h : Holds ed d) (hfit : d.line.text.length < CLI_MAX_LINE_LENGTH) {i : ℕ}
    (hi : i ≤ d.line.text.length) : ed.str i = some (d.line.text.drop i) := by
  have hbytes : ed.bytes i (CLI_MAX_LINE_LENGTH - i) =
      d.line.text.drop i ++
        '\x00' :: List.replicate (CLI_MAX_LINE_LENGTH - d.line.text.length - 1) '\x00' := by
    apply List.ext_getElem?
    intro k
    by_cases hk : k < CLI_MAX_LINE_LENGTH - i
    · have hleft : (ed.bytes i (CLI_MAX_LINE_LENGTH - i))[k]? = some (ed.cmd (i + k)) := by
        simp [Editor.bytes, List.getElem?_range hk]
      rw [hleft, h.cmd (i + k) (by omega), ← List.replicate_succ, List.getElem?_append,
        List.length_drop, List.getElem?_drop]
      split
      · next hin => rw [List.getElem?_eq_getElem (by omega), Option.getD_some]
      · next hin =>
          rw [List.getElem?_eq_none (by omega), Option.getD_none,
            List.getElem?_replicate_of_lt (by omega)]
    · rw [List.getElem?_eq_none, List.getElem?_eq_none]
      · simp only [List.length_append, List.length_drop, List.length_cons, List.length_replicate]
        omega
      · simpa [Editor.bytes] using not_lt.mp hk
  have hplain : ∀ c ∈ d.line.text.drop i, decide (c ≠ '\x00') = true := by
    intro c hc
    exact decide_eq_true fun hz => h.plain (hz ▸ List.mem_of_mem_drop hc)
  rw [Editor.str, hbytes, if_pos (by simp), List.takeWhile_append_of_pos hplain]
  simp

/-! ## One lemma for each operation -/

theorem not_mem_of_sublist {s t : List Char} (h : List.Sublist s t) (ht : '\x00' ∉ t) :
    '\x00' ∉ s := fun hs => ht (h.subset hs)

/-- The cursor moves. -/
theorem Holds.move (h : Holds ed d) {z : Zipper Char} (htext : z.text = d.line.text) :
    Holds { ed with cursor := z.before.length } { d with line := z } where
  l := htext ▸ h.l
  cursor := rfl
  cmd := htext ▸ h.cmd
  plain := htext ▸ h.plain
  inHistory := h.inHistory
  lastchar := h.lastchar

/-- A whole text is put into the buffer. -/
theorem holds_ofText {t : List Char} {inHistory : ℤ} {lastchar : Char} {cmd : ℕ → Char}
    (hcmd : ∀ k < CLI_MAX_LINE_LENGTH, cmd k = (t[k]?).getD '\x00') (hplain : '\x00' ∉ t) :
    Holds ⟨cmd, t.length, t.length, inHistory, lastchar⟩ ⟨.ofText t, inHistory, lastchar⟩ where
  l := by rw [Zipper.text_ofText]
  cursor := rfl
  cmd := by rw [Zipper.text_ofText]; exact hcmd
  plain := by rw [Zipper.text_ofText]; exact hplain
  inHistory := rfl
  lastchar := rfl

theorem Holds.backChar (h : Holds ed d) (hsecret : ctx.secret = false)
    (hne : d.line.before ≠ []) (hfit : d.line.text.length + 1 < CLI_MAX_LINE_LENGTH) :
    ∃ out ed', backChar ctx ed = some (out, ed') ∧ Holds ed' { d with line := d.line.back } := by
  obtain ⟨before, a, hbefore⟩ := (List.eq_nil_or_concat d.line.before).resolve_left hne
  have htext : d.line.text = before ++ a :: d.line.after := by
    simp [Zipper.text, hbefore]
  have hback : d.line.back = ⟨before, d.line.after⟩ := by
    simp [Zipper.back, hbefore]
  have hsub : List.Sublist (before ++ d.line.after) d.line.text := by
    rw [htext]
    exact List.Sublist.append (List.Sublist.refl before) (List.sublist_cons_self a d.line.after)
  have hlen : d.line.text.length = before.length + 1 + d.line.after.length := by
    rw [htext, List.length_append, List.length_cons]
    omega
  have hcursor : ed.cursor = before.length + 1 := by rw [h.cursor, hbefore]; simp
  have hl : ed.l = before.length + 1 + d.line.after.length := h.l.trans hlen
  -- the buffer after the step has the rest of the text
  have hrest : ∀ cmd : ℕ → Char,
      (∀ k < CLI_MAX_LINE_LENGTH, cmd k = ((before ++ d.line.after)[k]?).getD '\x00') →
      Holds ⟨cmd, ed.l - 1, ed.cursor - 1, ed.inHistory, ed.lastchar⟩
        { d with line := d.line.back } := by
    intro cmd hcmd
    rw [hback]
    exact
      { l := by simp [Zipper.text, hl]
        cursor := by simp [hcursor]
        cmd := hcmd
        plain := not_mem_of_sublist hsub h.plain
        inHistory := h.inHistory
        lastchar := h.lastchar }
  by_cases hend : ed.l = ed.cursor
  · have hafter : d.line.after = [] := List.length_eq_zero_iff.mp (by omega)
    have hcmd : ∀ k < CLI_MAX_LINE_LENGTH,
        (if k = ed.cursor - 1 then '\x00' else ed.cmd k) =
          ((before ++ d.line.after)[k]?).getD '\x00' := by
      intro k hk
      rw [h.cmd k hk, htext, hafter, List.append_nil, List.getElem?_append]
      by_cases hin : k < before.length
      · rw [if_neg (by omega), if_pos hin]
      · rw [List.getElem?_eq_none (l := before) (by omega)]
        by_cases hk : k = ed.cursor - 1
        · rw [if_pos hk]
          rfl
        · rw [if_neg hk, if_neg hin, List.getElem?_eq_none (by simp; omega)]
    have hstep : Cli.backChar ctx ed = some (['\x08', ' ', '\x08'],
        ⟨fun k => if k = ed.cursor - 1 then '\x00' else ed.cmd k, ed.l - 1, ed.cursor - 1,
          ed.inHistory, ed.lastchar⟩) := by
      rw [Cli.backChar, if_neg (by omega), if_pos hend, Editor.store, if_pos (by omega), hsecret]
      rfl
    exact ⟨_, _, hstep, hrest _ hcmd⟩
  · have hcmd : ∀ k < CLI_MAX_LINE_LENGTH,
        (if ed.cursor - 1 ≤ k ∧ k ≤ ed.l then ed.cmd (k + 1) else ed.cmd k) =
          ((before ++ d.line.after)[k]?).getD '\x00' := by
      intro k hk
      by_cases hin : ed.cursor - 1 ≤ k ∧ k ≤ ed.l
      · rw [if_pos hin, h.cmd (k + 1) (by omega), htext, List.getElem?_append_right (by omega),
          List.getElem?_append_right (by omega),
          show k + 1 - before.length = k - before.length + 1 by omega, List.getElem?_cons_succ]
      · rw [if_neg hin, h.cmd k hk, htext]
        by_cases hleft : k < before.length
        · rw [List.getElem?_append_left hleft, List.getElem?_append_left hleft]
        · rw [List.getElem?_eq_none (by simp; omega), List.getElem?_eq_none (by simp; omega)]
    have hmoved := hrest _ hcmd
    have hstr := hmoved.str (i := ed.cursor - 1) (by simp [hback, Zipper.text]; omega)
      (by simp [hback, Zipper.text]; omega)
    have hstep : ∃ out, Cli.backChar ctx ed = some (out,
        ⟨fun k => if ed.cursor - 1 ≤ k ∧ k ≤ ed.l then ed.cmd (k + 1) else ed.cmd k, ed.l - 1,
          ed.cursor - 1, ed.inHistory, ed.lastchar⟩) := by
      have hsame : ({ ed with
          cmd := fun k => if ed.cursor - 1 ≤ k ∧ k ≤ ed.l then ed.cmd (k + 1) else ed.cmd k } :
          Editor).str (ed.cursor - 1) = some _ := hstr
      rw [Cli.backChar, if_neg (by omega), if_neg hend, hsecret, if_neg Bool.false_ne_true,
        if_pos (by omega)]
      simp only [hsame]
      exact ⟨_, rfl⟩
    obtain ⟨out, hstep⟩ := hstep
    exact ⟨out, _, hstep, hmoved⟩

/-- Characters are taken away in front of the cursor. -/
theorem Holds.backChars (h : Holds ed d) (hsecret : ctx.secret = false) {n : ℕ}
    (hn : n ≤ d.line.before.length) (hfit : d.line.text.length + 1 < CLI_MAX_LINE_LENGTH) :
    ∃ out ed', backChars ctx n ed = some (out, ed') ∧
      Holds ed' { d with line := Zipper.back^[n] d.line } := by
  induction n generalizing ed d with
  | zero => exact ⟨[], ed, rfl, h⟩
  | succ n ih =>
      have hne : d.line.before ≠ [] := by
        rintro hnil
        simp [hnil] at hn
      obtain ⟨out, ed', hstep, hback⟩ := h.backChar hsecret hne hfit
      have hbefore : d.line.back.before.length = d.line.before.length - 1 := by
        simp [Zipper.back]
      have hfit' : d.line.back.text.length + 1 < CLI_MAX_LINE_LENGTH := by
        have hlen := d.line.length_text
        have hlen' := d.line.back.length_text
        have hafter : d.line.back.after = d.line.after := rfl
        rw [hafter] at hlen'
        omega
      obtain ⟨out', ed'', hrest, hback'⟩ := ih hback (by simp only [hbefore]; omega) hfit'
      refine ⟨out ++ out', ed'', ?_, hback'⟩
      simp only [Cli.backChars, hstep, hrest, Option.pure_def, Option.bind_eq_bind,
        Option.bind_some]

theorem rdropWhile_eq_take (p : Char → Bool) (s : List Char) :
    s.rdropWhile p = s.take (s.length - (s.reverse.takeWhile p).length) := by
  have hsplit : s.reverse.dropWhile p = s.reverse.drop (s.reverse.takeWhile p).length := by
    conv_rhs =>
      rw [← List.takeWhile_append_dropWhile (p := p) (l := s.reverse)]
    rw [List.drop_left' (by simp [List.takeWhile_append_dropWhile])]
  rw [List.rdropWhile, hsplit, List.drop_reverse, List.reverse_reverse]

/-- The word that is removed has the length that is counted. -/
theorem backWord_eq (h : Holds ed d) (hfit : d.line.text.length ≤ CLI_MAX_LINE_LENGTH) :
    wordBack ed ≤ d.line.before.length ∧ backWord d.line = Zipper.back^[wordBack ed] d.line := by
  let blanks := (d.line.before.reverse.takeWhile (· == ' ')).length
  let front := d.line.before.take (d.line.before.length - blanks)
  have hfront : d.line.before.rdropWhile (· == ' ') = front := rdropWhile_eq_take _ _
  have hreverse : d.line.before.reverse.drop blanks = front.reverse := by
    rw [List.drop_reverse]
  have hword : wordBack ed = blanks + (front.reverse.takeWhile (· != ' ')).length := by
    rw [wordBack, h.before hfit]
    simp only [blanks, ← hreverse]
  have hblanks : blanks ≤ d.line.before.length := by
    have := (List.takeWhile_prefix (p := (· == ' ')) (l := d.line.before.reverse)).length_le
    rwa [List.length_reverse] at this
  have hrest : (front.reverse.takeWhile (· != ' ')).length ≤ front.length := by
    have := (List.takeWhile_prefix (p := (· != ' ')) (l := front.reverse)).length_le
    rwa [List.length_reverse] at this
  have hlen : front.length = d.line.before.length - blanks := by
    simp [front]
  refine ⟨by omega, ?_⟩
  rw [backWord, hfront, rdropWhile_eq_take, Zipper.iterate_back, hlen, hword]
  simp only [front, List.take_take, Zipper.mk.injEq, and_true]
  congr 1
  omega

/-- The buffer after `cli_clear_line`. -/
theorem clearLine_eq (ed : Editor) (hroom : 3 * ed.l ≤ CLI_MAX_LINE_LENGTH) :
    ∃ out, clearLine ed = some (out, { ed with
      cmd := fun k => if 0 ≤ k ∧ k < 0 + 3 * ed.l then '\x00' else ed.cmd k }) := by
  rw [clearLine, Editor.zero, if_pos (by omega)]
  exact ⟨_, rfl⟩

theorem Holds.cleared (h : Holds ed d) {n k : ℕ} (hn : d.line.text.length ≤ n)
    (hk : k < CLI_MAX_LINE_LENGTH) :
    (if 0 ≤ k ∧ k < 0 + n then '\x00' else ed.cmd k) = '\x00' := by
  split
  · rfl
  · rw [h.cmd k hk, List.getElem?_eq_none (by omega), Option.getD_none]

theorem Holds.clearKey (h : Holds ed d) (hsecret : ctx.secret = false)
    (hroom : 3 * d.line.text.length ≤ CLI_MAX_LINE_LENGTH) :
    ∃ out ed', clearKey ctx ed = some (.more out ed') ∧
      Holds ed' { d with line := ⟨[], []⟩ } := by
  obtain ⟨out, hclear⟩ := clearLine_eq ed (by rw [h.l]; exact hroom)
  have hstep : Cli.clearKey ctx ed = some (.more out
      ⟨fun k => if 0 ≤ k ∧ k < 0 + 3 * ed.l then '\x00' else ed.cmd k, 0, 0, ed.inHistory,
        ed.lastchar⟩) := by
    rw [Cli.clearKey, hsecret, hclear]
    rfl
  refine ⟨out, _, hstep, ?_⟩
  rw [h.inHistory, h.lastchar]
  refine holds_ofText (t := []) (fun k hk => ?_) (by simp)
  exact h.cleared (by rw [h.l]; omega) hk

theorem Holds.killKey (h : Holds ed d) (ctx : Context)
    (hfit : d.line.text.length ≤ CLI_MAX_LINE_LENGTH) :
    ∃ out ed', killKey ctx ed = some (.more out ed') ∧
      Holds ed' { d with line := d.line.kill } := by
  have hlen := d.line.length_text
  have hl := h.l
  have hcursor := h.cursor
  rw [Cli.killKey]
  by_cases hend : ed.cursor = ed.l
  · have hafter : d.line.after = [] := List.length_eq_zero_iff.mp (by omega)
    have hkill : d.line.kill = d.line := by
      rw [Zipper.kill, ← hafter]
    rw [if_pos hend, hkill]
    exact ⟨[], ed, rfl, h⟩
  · have hzero : ed.zero ed.cursor (ed.l - ed.cursor) = some { ed with
        cmd := fun k => if ed.cursor ≤ k ∧ k < ed.cursor + (ed.l - ed.cursor) then '\x00'
          else ed.cmd k } := if_pos (by omega)
    simp only [if_neg hend, hzero, Option.pure_def, Option.bind_eq_bind, Option.bind_some]
    refine ⟨_, _, rfl, ?_⟩
    have hsub : List.Sublist d.line.before d.line.text := List.sublist_append_left _ _
    refine ⟨?_, ?_, fun k hk => ?_, ?_, h.inHistory, h.lastchar⟩
    · simpa [Zipper.kill, Zipper.text] using hcursor
    · exact hcursor
    · simp only [Zipper.kill, Zipper.text, List.append_nil]
      split
      · rw [List.getElem?_eq_none (by omega), Option.getD_none]
      · rw [h.cmd k hk, Zipper.text]
        by_cases hin : k < d.line.before.length
        · rw [List.getElem?_append_left hin]
        · rw [List.getElem?_eq_none (by simp; omega), List.getElem?_eq_none (by omega)]
    · simpa [Zipper.kill, Zipper.text] using not_mem_of_sublist hsub h.plain

/-- A character goes into the text. -/
theorem Holds.insertChar (h : Holds ed d) {c : Char} (hc : c ≠ '\x00')
    (hfit : d.line.text.length + 2 < CLI_MAX_LINE_LENGTH) :
    ∃ out ed', insertChar ed c = some (out, ed') ∧
      Holds ed' { d with line := d.line.insert c } := by
  have hlen := d.line.length_text
  have hl := h.l
  have hcursor := h.cursor
  have htext : d.line.text = d.line.before ++ d.line.after := rfl
  have hplain : '\x00' ∉ (d.line.insert c).text := by
    have hold := h.plain
    rw [htext, List.mem_append, not_or] at hold
    rw [Zipper.text_insert, List.mem_append, List.mem_cons, not_or, not_or]
    exact ⟨hold.1, hc.symm, hold.2⟩
  have hrest : ∀ cmd : ℕ → Char,
      (∀ k < CLI_MAX_LINE_LENGTH,
        cmd k = ((d.line.before ++ c :: d.line.after)[k]?).getD '\x00') →
      Holds ⟨cmd, ed.l + 1, ed.cursor + 1, ed.inHistory, ed.lastchar⟩
        { d with line := d.line.insert c } := by
    intro cmd hcmd
    exact
      { l := by rw [Zipper.text_insert]; simp; omega
        cursor := by simp [Zipper.insert, hcursor]
        cmd := by rw [Zipper.text_insert]; exact hcmd
        plain := hplain
        inHistory := h.inHistory
        lastchar := h.lastchar }
  rw [Cli.insertChar]
  by_cases hend : ed.cursor = ed.l
  · have hafter : d.line.after = [] := List.length_eq_zero_iff.mp (by omega)
    have hstore : ed.store ed.cursor c = some
        { ed with cmd := fun k => if k = ed.cursor then c else ed.cmd k } := if_pos (by omega)
    simp only [if_pos hend, hstore, Option.pure_def, Option.bind_eq_bind, Option.bind_some]
    refine ⟨_, _, rfl, hrest _ fun k hk => ?_⟩
    rw [h.cmd k hk, htext, hafter, List.append_nil]
    by_cases hin : k < d.line.before.length
    · rw [if_neg (by omega), List.getElem?_append_left hin]
    · rw [List.getElem?_append_right (by omega)]
      by_cases hk : k = ed.cursor
      · rw [if_pos hk, hk, hcursor, Nat.sub_self]
        rfl
      · rw [if_neg hk, List.getElem?_eq_none (by omega), List.getElem?_eq_none (by simp; omega)]
  · have hroom : ¬ ed.l ≥ CLI_MAX_LINE_LENGTH - 2 := by omega
    simp only [if_neg hend, if_neg hroom]
    rw [if_pos (by omega)]
    simp only [Option.pure_def]
    refine ⟨_, _, rfl, hrest _ fun k hk => ?_⟩
    by_cases hin : k < d.line.before.length
    · rw [if_neg (by omega), if_neg (by omega), h.cmd k hk, htext, List.getElem?_append_left hin,
        List.getElem?_append_left hin]
    · rw [List.getElem?_append_right (by omega)]
      by_cases hk' : k = ed.cursor
      · rw [if_pos hk', hk', hcursor, Nat.sub_self]
        rfl
      · rw [if_neg hk', show k - d.line.before.length = k - 1 - d.line.before.length + 1 by omega,
          List.getElem?_cons_succ]
        split
        · rw [h.cmd (k - 1) (by omega), htext, List.getElem?_append_right (by omega)]
        · rw [h.cmd k hk, List.getElem?_eq_none (by omega), List.getElem?_eq_none (by omega)]

/-! ## Every key -/

/-- The line editor has done what the key means. -/
inductive Follows : Outcome → Drafted → Prop
  | more {out : List Char} {ed : Editor} {d : Draft} (h : Holds ed d) :
      Follows (.more out ed) (.more d)
  | leaves {out : List Char} {ed : Editor} {d : Draft} (h : Holds ed d) :
      Follows (.leaves out ed) (.leaves d)
  | enter {out : List Char} {ed : Editor} {d : Draft} (h : Holds ed d) :
      Follows (.enter out ed) (.enter d)
  | asks {out : List Char} {ed : Editor} {d : Draft} (h : Holds { ed with cursor := ed.l } d) :
      Follows (.asks out ed) (.asks d)
  | closed : Follows .closed .closed

/-- What the line editor relies on: the text fills at most a third of the buffer, the
mode is left with an empty line, a completion is no shorter than the word it
replaces, and there is room for it. -/
structure Fits (ctx : Context) (d : Draft) (c : Char) : Prop where
  room : 3 * d.line.text.length ≤ CLI_MAX_LINE_LENGTH
  leaves : c = CTRL 'Z' → ctx.configuring = true → d.line.text = []
  completes : c = CTRL 'I' → ∀ completion, ctx.completions d.line.text = [completion] →
    '\x00' ∉ completion ∧
    (d.line.text.reverse.takeWhile fun c => c != ' ' && c != '|').length ≤ completion.length ∧
    (completed d.line.text completion).length ≤ CLI_MAX_LINE_LENGTH
  history : ∀ cmd ∈ ctx.history, '\x00' ∉ cmd

theorem CLI_MAX_LINE_LENGTH_eq : CLI_MAX_LINE_LENGTH = 4096 := rfl

theorem Holds.backKey (h : Holds ed d) (hsecret : ctx.secret = false)
    (hroom : 3 * d.line.text.length ≤ CLI_MAX_LINE_LENGTH) (c : Char) :
    ∃ outcome, backKey ctx ed c = some outcome ∧
      Follows outcome (.more { d with
        line := if c = CTRL 'W' then backWord d.line else d.line.back }) := by
  have hlen := d.line.length_text
  have hmax := CLI_MAX_LINE_LENGTH_eq
  obtain ⟨hword, hbackWord⟩ := backWord_eq h (by omega)
  rw [Cli.backKey]
  by_cases hnone : ed.l = 0 ∨ ed.cursor = 0
  · have hbefore : d.line.before = [] := by
      apply List.length_eq_zero_iff.mp
      have hl := h.l
      have hcursor := h.cursor
      omega
    have hsame : (if c = CTRL 'W' then backWord d.line else d.line.back) = d.line := by
      have hstart : ∀ z : Zipper Char, z.before = [] → backWord z = z ∧ z.back = z := by
        rintro ⟨before, after⟩ rfl
        exact ⟨rfl, rfl⟩
      obtain ⟨hword, hback⟩ := hstart d.line hbefore
      rw [hword, hback, ite_self]
    rw [if_pos hnone, hsame]
    exact ⟨_, rfl, .more h⟩
  · have hone : 1 ≤ d.line.before.length := by
      have hcursor := h.cursor
      omega
    obtain ⟨out, ed', hstep, hback⟩ := h.backChars hsecret
      (n := if c = CTRL 'W' then wordBack ed else 1) (by split <;> omega) (by omega)
    refine ⟨.more out ed', ?_, .more ?_⟩
    · simp only [if_neg hnone, hstep, Option.pure_def, Option.bind_eq_bind, Option.bind_some]
    · by_cases hc : c = CTRL 'W'
      · rw [if_pos hc] at hback ⊢
        rw [hbackWord]
        exact hback
      · rw [if_neg hc] at hback ⊢
        exact hback

theorem Holds.leaveKey (h : Holds ed d) {c : Char} (hc : c = CTRL 'Z') (hfits : Fits ctx d c) :
    ∃ outcome, leaveKey ctx ed = some outcome ∧
      Follows outcome (if ctx.configuring then .leaves d else .more d) := by
  rw [Cli.leaveKey]
  by_cases hconf : ctx.configuring = true
  · have htext := hfits.leaves hc hconf
    have hl : ed.l = 0 := by rw [h.l, htext]; rfl
    obtain ⟨out, hclear⟩ := clearLine_eq ed (by rw [hl]; exact Nat.zero_le _)
    simp only [if_pos hconf, hclear, Option.pure_def, Option.bind_eq_bind, Option.bind_some]
    refine ⟨_, rfl, .leaves ⟨h.l, h.cursor, fun k hk => ?_, h.plain, h.inHistory, h.lastchar⟩⟩
    dsimp only
    rw [if_neg (by omega)]
    exact h.cmd k hk
  · rw [if_neg hconf, if_neg hconf]
    exact ⟨_, rfl, .more h⟩

/-- The last word is replaced by the completion. -/
theorem Holds.complete (h : Holds ed d) {completion : List Char}
    (hplain : '\x00' ∉ completion)
    (hword : (d.line.text.reverse.takeWhile fun c => c != ' ' && c != '|').length ≤
      completion.length)
    (hfit : d.line.text.length ≤ CLI_MAX_LINE_LENGTH)
    (hroom : (completed d.line.text completion).length ≤ CLI_MAX_LINE_LENGTH) :
    ∃ ed₁ ed₂, ed.copy (ed.l - lastWord ed) completion = some ed₁ ∧
      ed₁.store (ed.l - lastWord ed + completion.length) ' ' = some ed₂ ∧
      Holds { ed₂ with
        l := ed.l - lastWord ed + completion.length + 1
        cursor := ed.l - lastWord ed + completion.length + 1 }
        { d with line := .ofText (completed d.line.text completion) } := by
  let base := d.line.text.take (d.line.text.length - lastWord ed)
  have hlast : lastWord ed =
      (d.line.text.reverse.takeWhile fun c => c != ' ' && c != '|').length := by
    rw [lastWord, h.bytes hfit (by rw [h.l]; omega), h.l, List.drop_zero, List.take_length]
  have hbase : (d.line.text.rdropWhile fun c => c != ' ' && c != '|') = base := by
    rw [rdropWhile_eq_take, ← hlast]
  have hbaselen : base.length = ed.l - lastWord ed := by
    rw [h.l]
    simp [base]
  have hle : lastWord ed ≤ d.line.text.length := by
    rw [hlast]
    have hprefix := (List.takeWhile_prefix (p := fun c : Char => c != ' ' && c != '|')
      (l := d.line.text.reverse)).length_le
    rwa [List.length_reverse] at hprefix
  have htext : completed d.line.text completion = base ++ completion ++ [' '] := by
    rw [completed, hbase]
  have hlen : (completed d.line.text completion).length = base.length + completion.length + 1 := by
    rw [htext]
    simp
    omega
  have hsub : List.Sublist base d.line.text := List.take_sublist _ _
  have hl := h.l
  rw [← hbaselen]
  refine ⟨_, _, if_pos (by omega), if_pos (by omega), ?_⟩
  rw [← hlen, h.inHistory, h.lastchar]
  refine holds_ofText (fun k hk => ?_) ?_
  · dsimp only
    rw [htext]
    by_cases hspace : k = base.length + completion.length
    · rw [if_pos hspace, List.getElem?_append_right (by simp; omega)]
      simp [hspace]
    · rw [if_neg hspace]
      by_cases hin : base.length ≤ k ∧ k ≤ base.length + completion.length
      · rw [if_pos hin, List.getElem?_append_left (by simp; omega),
          List.getElem?_append_right hin.1, List.getD_eq_getElem?_getD]
      · rw [if_neg hin, h.cmd k hk]
        by_cases hleft : k < base.length
        · rw [List.append_assoc, List.getElem?_append_left hleft]
          simp only [base, List.length_take] at hleft
          rw [List.getElem?_take_of_lt (by omega)]
        · rw [List.getElem?_eq_none (by omega), List.getElem?_eq_none (by simp; omega)]
  · rw [htext]
    simp only [List.mem_append, List.mem_singleton, not_or]
    exact ⟨⟨not_mem_of_sublist hsub h.plain, hplain⟩, by decide⟩

theorem Holds.tabKey (h : Holds ed d) (hsecret : ctx.secret = false) {c : Char}
    (hc : c = CTRL 'I') (hfits : Fits ctx d c) :
    ∃ outcome, tabKey ctx ed = some outcome ∧ Follows outcome (.more (draftTab ctx d)) := by
  have hroom := hfits.room
  have hmax := CLI_MAX_LINE_LENGTH_eq
  have hlen := d.line.length_text
  have hend : ed.cursor ≠ ed.l ↔ d.line.after ≠ [] := by
    rw [h.cursor, h.l, hlen, Ne, Ne, ← List.length_eq_zero_iff]
    omega
  rw [Cli.tabKey, draftTab]
  by_cases hskip : ctx.login = true ∨ d.line.after ≠ []
  · have hskip' : ctx.login = true ∨ ctx.secret = true ∨ ed.cursor ≠ ed.l := by
      rcases hskip with hl | hl
      · exact .inl hl
      · exact .inr (.inr (hend.mpr hl))
    rw [if_pos hskip, if_pos hskip']
    exact ⟨_, rfl, .more h⟩
  · rw [not_or] at hskip
    have hgo : ¬ (ctx.login = true ∨ ctx.secret = true ∨ ed.cursor ≠ ed.l) := by
      rw [hsecret, hend]
      simp [hskip.1, not_not.mp hskip.2]
    have hstr := h.str (i := 0) (by omega) (Nat.zero_le _)
    rw [List.drop_zero] at hstr
    rw [if_neg hgo, if_neg (by rw [not_or]; exact hskip)]
    simp only [hstr, Option.pure_def, Option.bind_eq_bind, Option.bind_some]
    rcases hcomp : ctx.completions d.line.text with _ | ⟨completion, _ | ⟨second, more⟩⟩
    · exact ⟨_, rfl, .more h⟩
    · obtain ⟨hplain, hword, hfit⟩ := hfits.completes hc completion hcomp
      obtain ⟨ed₁, ed₂, hcopy, hstore, hholds⟩ := h.complete hplain hword (by omega) hfit
      simp only [hcopy, hstore, Option.bind_some]
      exact ⟨_, rfl, .more hholds⟩
    · have hlast : Holds { ed with lastchar := CTRL 'I' } { d with lastchar := CTRL 'I' } :=
        ⟨h.l, h.cursor, h.cmd, h.plain, h.inHistory, rfl⟩
      dsimp only
      split
      · next hagain =>
          refine ⟨_, rfl, .more ?_⟩
          have hsame : ({ d with lastchar := CTRL 'I' } : Draft) = d := by
            rw [← hagain, h.lastchar]
          rw [hsame]
          exact h
      · exact ⟨_, rfl, .more hlast⟩

theorem historyKey_mem {inHistory : ℤ} {up : Bool} {cmd : List Char}
    (h : (historyKey ctx inHistory up).2 = some cmd) : cmd ∈ ctx.history := by
  rw [historyKey] at h
  split at h
  · split at h
    · exact List.mem_of_getLast? h
    · exact List.mem_of_getElem? h
  · split at h
    · next hget =>
        cases h
        exact List.mem_of_getElem? hget
    · split at h
      · cases h
      · exact List.mem_of_mem_head? h

theorem Holds.historyStep (h : Holds ed d) (hsecret : ctx.secret = false) {c : Char}
    (hfits : Fits ctx d c) (up : Bool) :
    ∃ outcome, historyStep ctx ed up = some outcome ∧
      Follows outcome (.more (draftHistory ctx d up)) := by
  rw [Cli.historyStep, draftHistory, hsecret, h.inHistory]
  by_cases hlogin : ctx.login = true
  · rw [if_pos (.inl hlogin), if_pos hlogin]
    exact ⟨_, rfl, .more h⟩
  · rw [if_neg (by simpa using hlogin), if_neg hlogin]
    rcases hkey : historyKey ctx d.inHistory up with ⟨inHistory, _ | cmd⟩
    · exact ⟨_, rfl, .more ⟨h.l, h.cursor, h.cmd, h.plain, rfl, h.lastchar⟩⟩
    · have hmem : cmd ∈ ctx.history := historyKey_mem (by rw [hkey])
      obtain ⟨out, hclear⟩ := clearLine_eq { ed with inHistory := inHistory }
        (by rw [h.l]; exact hfits.room)
      have hplain : '\x00' ∉ cmd.take (CLI_MAX_LINE_LENGTH - 1) :=
        not_mem_of_sublist (List.take_sublist _ _) (hfits.history cmd hmem)
      simp only [hclear, Option.pure_def, Option.bind_eq_bind, Option.bind_some]
      refine ⟨_, rfl, .more ?_⟩
      rw [h.lastchar]
      exact holds_ofText (fun k _ => List.getD_eq_getElem?_getD) hplain

theorem Holds.moveKey (h : Holds ed d) (ctx : Context) (c : Char) :
    Follows (moveKey ctx ed c) (.more { d with
      line := if c = CTRL 'B' then d.line.left else if c = CTRL 'F' then d.line.right
        else if c = CTRL 'A' then d.line.home else d.line.toEnd }) := by
  have hlen := d.line.length_text
  have hcursor := h.cursor
  have hl := h.l
  have hsame : ∀ {z : Zipper Char}, z = d.line → Holds ed { d with line := z } := by
    rintro z rfl
    exact h
  have hmove : ∀ (z : Zipper Char) (n : ℕ), z.text = d.line.text → n = z.before.length →
      Holds { ed with cursor := n } { d with line := z } := by
    rintro z n htext rfl
    exact h.move htext
  rw [Cli.moveKey]
  by_cases hb : c = CTRL 'B'
  · rw [if_pos hb, if_pos hb]
    split
    · next hzero =>
        have hnil : d.line.before = [] := List.length_eq_zero_iff.mp (by omega)
        exact .more (hsame (Zipper.left_of_nil hnil))
    · exact .more (hmove _ _ (Zipper.text_left d.line) (by simp [Zipper.left, hcursor]))
  rw [if_neg hb, if_neg hb]
  by_cases hf : c = CTRL 'F'
  · rw [if_pos hf, if_pos hf]
    split
    · next hlt =>
        refine .more (hmove _ _ (Zipper.text_right d.line) ?_)
        cases hafter : d.line.after with
        | nil =>
            rw [hafter, List.length_nil] at hlen
            omega
        | cons a after => simp [Zipper.right, hafter, hcursor]
    · next hge =>
        have hnil : d.line.after = [] := List.length_eq_zero_iff.mp (by omega)
        exact .more (hsame (Zipper.right_of_nil hnil))
  rw [if_neg hf, if_neg hf]
  by_cases ha : c = CTRL 'A'
  · rw [if_pos ha, if_pos ha]
    split
    · next hzero =>
        have hnil : d.line.before = [] := List.length_eq_zero_iff.mp (by omega)
        exact .more (hsame (Zipper.home_of_nil hnil))
    · exact .more (hmove _ _ (Zipper.text_home d.line) rfl)
  · rw [if_neg ha, if_neg ha]
    split
    · exact .more (hmove _ _ (Zipper.text_toEnd d.line) hl)
    · next hge =>
        have hnil : d.line.after = [] := List.length_eq_zero_iff.mp (by omega)
        exact .more (hsame (Zipper.toEnd_of_nil hnil))

theorem Holds.typeKey (h : Holds ed d) (hsecret : ctx.secret = false) {c : Char}
    (hc : c ≠ '\x00') (hfit : d.line.text.length + 2 < CLI_MAX_LINE_LENGTH) :
    ∃ outcome, typeKey ctx ed c = some outcome ∧ Follows outcome (draftType d c) := by
  have hmax := CLI_MAX_LINE_LENGTH_eq
  have hl := h.l
  obtain ⟨out, ed', hinsert, hholds⟩ := h.insertChar hc (by omega)
  have hlen := (d.line.insert c).length_text
  have hafter : (d.line.insert c).after = d.line.after := rfl
  have hend : ed'.cursor = ed'.l ↔ d.line.after = [] := by
    have hcursor : ed'.cursor = (d.line.insert c).before.length := hholds.cursor
    have hl : ed'.l = (d.line.insert c).text.length := hholds.l
    rw [hcursor, hl, hlen, hafter, ← List.length_eq_zero_iff]
    omega
  have hfull : ¬ (ed.cursor = ed.l ∧ ¬ ed.l < CLI_MAX_LINE_LENGTH - 1) := by omega
  rw [Cli.typeKey, if_neg hfull]
  simp only [hinsert, hsecret, Bool.false_eq_true, if_false, Option.pure_def, Option.bind_eq_bind,
    Option.bind_some, hend]
  rw [draftType]
  split
  · next hask =>
      refine ⟨_, rfl, .asks ?_⟩
      have hcursor := hend.mpr hask.2
      refine ⟨hholds.l, ?_, hholds.cmd, hholds.plain, hholds.inHistory, hholds.lastchar⟩
      rw [← hholds.cursor, hcursor]
  · exact ⟨_, rfl, .more ⟨hholds.l, hholds.cursor, hholds.cmd, hholds.plain, hholds.inHistory, rfl⟩⟩

/-- Every key does to the buffer what it means, and stays within it. -/
theorem Holds.handleKey (h : Holds ed d) (hsecret : ctx.secret = false) {c : Char}
    (hfits : Fits ctx d c) :
    ∃ outcome, handleKey ctx ed c = some outcome ∧ Follows outcome (draftKey ctx d c) := by
  have hroom := hfits.room
  have hmax := CLI_MAX_LINE_LENGTH_eq
  have hkey := key_cases ctx ed d c
  generalize Cli.handleKey ctx ed c = step at hkey
  generalize draftKey ctx d c = drafted at hkey
  cases hkey with
  | skip => exact ⟨_, rfl, .more h⟩
  | enter => exact ⟨_, rfl, .enter h⟩
  | interrupt => exact ⟨_, rfl, .more h⟩
  | back => exact h.backKey hsecret hroom c
  | redraw => exact ⟨_, rfl, .more h⟩
  | clear =>
      obtain ⟨out, ed', hstep, hholds⟩ := h.clearKey hsecret hroom
      exact ⟨_, hstep, .more hholds⟩
  | kill =>
      obtain ⟨out, ed', hstep, hholds⟩ := h.killKey ctx (by omega)
      exact ⟨_, hstep, .more hholds⟩
  | close =>
      have hempty : ed.l ≠ 0 ↔ d.line.text ≠ [] := by
        rw [h.l, Ne, Ne, List.length_eq_zero_iff]
      rw [hsecret, if_neg Bool.false_ne_true]
      simp only [hempty]
      split
      · exact ⟨_, rfl, .more h⟩
      · exact ⟨_, rfl, .closed⟩
  | leave hz => exact h.leaveKey hz hfits
  | tab hi => exact h.tabKey hsecret hi hfits
  | history up => exact h.historyStep hsecret hfits up
  | move => exact ⟨_, rfl, h.moveKey ctx c⟩
  | type hc => exact h.typeKey hsecret hc (by omega)

end Holds

/-! ## A whole line -/

/-- A context in which there is nothing to complete or recall. -/
def bareContext : Context where
  login := false
  secret := false
  configuring := false
  prompt := ['>', ' ']
  history := []
  completions := fun _ => []

end EceLib.Cli
