import EceLib.Cli.Draft

/-!
# What the line editor gives away

At the prompt for a password nothing of it is written to the terminal as long as
the cursor stays at the end; where it was moved back, the characters behind it
are written when one is inserted.  At a prompt for commands, clearing a line of
more than a third of the buffer writes behind the buffer.
-/

namespace EceLib.Cli

open Support

/-! ## The prompt for a password -/

/-- The cursor is at the end, and the end is in the buffer. -/
def Editor.AtEnd (ed : Editor) : Prop := ed.cursor = ed.l ∧ ed.l < CLI_MAX_LINE_LENGTH

/-- Only bells are written, and the cursor stays at the end. -/
inductive Quiet : Outcome → Prop
  | more {out : List Char} {ed : Editor} (bells : ∀ c ∈ out, c = bell) (h : ed.AtEnd) :
      Quiet (.more out ed)
  | enter {ed : Editor} (h : ed.AtEnd) : Quiet (.enter [] ed)

section Secret

variable {ctx : Context} {ed : Editor}

theorem AtEnd.backChars (hsecret : ctx.secret = true) {n : ℕ} (h : ed.AtEnd)
    (hn : n ≤ ed.cursor) :
    ∃ ed', backChars ctx n ed = some ([], ed') ∧ ed'.AtEnd := by
  induction n generalizing ed with
  | zero => exact ⟨ed, rfl, h⟩
  | succ n ih =>
      obtain ⟨hcursor, hl⟩ := h
      have hstep : backChar ctx ed = some ([],
          ⟨fun k => if k = ed.cursor - 1 then '\x00' else ed.cmd k, ed.l - 1, ed.cursor - 1,
            ed.inHistory, ed.lastchar⟩) := by
        rw [backChar, if_neg (by omega), if_pos hcursor.symm, Editor.store, if_pos (by omega),
          hsecret]
        rfl
      have hnext : Editor.AtEnd ⟨fun k => if k = ed.cursor - 1 then '\x00' else ed.cmd k, ed.l - 1,
          ed.cursor - 1, ed.inHistory, ed.lastchar⟩ :=
        ⟨by simp only; omega, by simp only; omega⟩
      obtain ⟨ed', hrest, hend⟩ := ih hnext (by simp only; omega)
      refine ⟨ed', ?_, hend⟩
      rw [Cli.backChars, hstep]
      simp only [hrest, Option.pure_def, Option.bind_eq_bind, Option.bind_some, List.nil_append]

theorem wordBack_le (ed : Editor) : wordBack ed ≤ ed.cursor := by
  have hlen : (ed.bytes 0 ed.cursor).reverse.length = ed.cursor := by
    simp [Editor.bytes]
  have hblanks := (List.takeWhile_prefix (p := (· == ' '))
    (l := (ed.bytes 0 ed.cursor).reverse)).length_le
  have hword := (List.takeWhile_prefix (p := (· != ' '))
    (l := (ed.bytes 0 ed.cursor).reverse.drop
      ((ed.bytes 0 ed.cursor).reverse.takeWhile (· == ' ')).length)).length_le
  rw [List.length_drop] at hword
  rw [wordBack]
  omega

theorem AtEnd.backKey (hsecret : ctx.secret = true) (h : ed.AtEnd) (c : Char) :
    ∃ outcome, backKey ctx ed c = some outcome ∧ Quiet outcome := by
  rw [Cli.backKey]
  by_cases hnone : ed.l = 0 ∨ ed.cursor = 0
  · rw [if_pos hnone]
    refine ⟨_, rfl, .more (fun a ha => ?_) h⟩
    split at ha
    · simp at ha
    · exact List.mem_singleton.mp ha
  · have hword := wordBack_le ed
    obtain ⟨ed', hstep, hend⟩ := AtEnd.backChars hsecret h
      (n := if c = CTRL 'W' then wordBack ed else 1) (by split <;> omega)
    simp only [if_neg hnone, hstep, Option.pure_def, Option.bind_eq_bind, Option.bind_some]
    exact ⟨_, rfl, .more (by simp) hend⟩

theorem AtEnd.typeKey (hsecret : ctx.secret = true) (h : ed.AtEnd) (c : Char) :
    ∃ outcome, typeKey ctx ed c = some outcome ∧ Quiet outcome := by
  obtain ⟨hcursor, hl⟩ := h
  have hstore : ed.store ed.cursor c = some
      { ed with cmd := fun k => if k = ed.cursor then c else ed.cmd k } := if_pos (by omega)
  rw [Cli.typeKey]
  by_cases hfull : ed.cursor = ed.l ∧ ¬ ed.l < CLI_MAX_LINE_LENGTH - 1
  · simp only [if_pos hfull, hstore, Option.pure_def, Option.bind_eq_bind, Option.bind_some]
    exact ⟨_, rfl, .more (fun a ha => List.mem_singleton.mp ha) ⟨hcursor, hl⟩⟩
  · have hinsert : insertChar ed c = some ([],
        ⟨fun k => if k = ed.cursor then c else ed.cmd k, ed.l + 1, ed.cursor + 1, ed.inHistory,
          ed.lastchar⟩) := by
      rw [insertChar, if_pos hcursor, hstore]
      rfl
    simp only [if_neg hfull, hinsert, hsecret, if_true, Option.pure_def, Option.bind_eq_bind,
      Option.bind_some]
    refine ⟨_, rfl, .more (by simp) ⟨?_, ?_⟩⟩
    · simp only [hcursor]
    · have hmax : CLI_MAX_LINE_LENGTH = 4096 := rfl
      simp only
      omega

/-- A key that does not move the cursor back writes bells only. -/
theorem AtEnd.handleKey (hsecret : ctx.secret = true) (hconf : ctx.configuring = false)
    (h : ed.AtEnd) {c : Char} (ha : c ≠ CTRL 'A') (hb : c ≠ CTRL 'B') :
    ∃ outcome, handleKey ctx ed c = some outcome ∧ Quiet outcome := by
  have hcursor := h.1
  have hl := h.2
  have hsilent : ∀ {out : List Char}, out = [] → Quiet (.more out ed) := by
    rintro out rfl
    exact .more (by simp) h
  have hkey := key_cases ctx ed .blank c
  generalize Cli.handleKey ctx ed c = step at hkey
  generalize draftKey ctx .blank c = drafted at hkey
  cases hkey with
  | skip => exact ⟨_, rfl, hsilent rfl⟩
  | enter =>
      rw [hsecret]
      exact ⟨_, rfl, .enter h⟩
  | interrupt => exact ⟨_, rfl, .more (fun a ha => List.mem_singleton.mp ha) h⟩
  | back => exact AtEnd.backKey hsecret h c
  | redraw =>
      rw [hsecret]
      exact ⟨_, rfl, hsilent rfl⟩
  | clear =>
      have hzero : ed.zero 0 ed.l = some { ed with
          cmd := fun k => if 0 ≤ k ∧ k < 0 + ed.l then '\x00' else ed.cmd k } := if_pos (by omega)
      have hstep : clearKey ctx ed = some (.more []
          ⟨fun k => if 0 ≤ k ∧ k < 0 + ed.l then '\x00' else ed.cmd k, 0, 0, ed.inHistory,
            ed.lastchar⟩) := by
        rw [clearKey, hsecret, hzero]
        rfl
      exact ⟨_, hstep, .more (by simp) ⟨rfl, Nat.zero_lt_succ 4095⟩⟩
  | kill =>
      rw [killKey, if_pos hcursor]
      exact ⟨_, rfl, hsilent rfl⟩
  | close =>
      rw [hsecret]
      exact ⟨_, rfl, .enter h⟩
  | leave =>
      rw [leaveKey, hconf]
      exact ⟨_, rfl, hsilent rfl⟩
  | tab =>
      rw [tabKey, if_pos (.inr (.inl hsecret))]
      exact ⟨_, rfl, hsilent rfl⟩
  | history up =>
      rw [historyStep, if_pos (.inr hsecret)]
      exact ⟨_, rfl, hsilent rfl⟩
  | move =>
      rw [moveKey, if_neg hb]
      refine ⟨_, rfl, ?_⟩
      by_cases hf : c = CTRL 'F'
      · rw [if_pos hf, if_neg (by omega)]
        exact hsilent rfl
      · rw [if_neg hf, if_neg ha, if_neg (by omega)]
        exact hsilent rfl
  | type => exact AtEnd.typeKey hsecret h c

/-- Whatever is typed at the prompt for a password without moving the cursor back,
the terminal sees nothing but bells. -/
theorem password_not_echoed (hsecret : ctx.secret = true) (hconf : ctx.configuring = false)
    (p : Pending) (bytes : List Char) (hed : ed.AtEnd) (ha : CTRL 'A' ∉ decoded p bytes)
    (hb : CTRL 'B' ∉ decoded p bytes) :
    ∃ out p' outcome rest, editRun ctx p ed bytes = some (out, p', outcome, rest) ∧
      ∀ c ∈ out, c = bell := by
  induction bytes generalizing p ed with
  | nil => exact ⟨_, _, _, _, rfl, by simp⟩
  | cons c bytes ih =>
      rw [decoded, List.mem_append, not_or] at ha hb
      rw [editRun, keyStep]
      rcases hdecode : decode p c with ⟨p', _ | key⟩
      · rw [hdecode] at ha hb
        obtain ⟨out, p'', outcome, rest, hrun, hbells⟩ := ih p' hed ha.2 hb.2
        simp only [hrun, Option.map_some]
        exact ⟨_, _, _, _, rfl, hbells⟩
      · rw [hdecode] at ha hb
        have hka : key ≠ CTRL 'A' := fun h => ha.1 (by simp [h])
        have hkb : key ≠ CTRL 'B' := fun h => hb.1 (by simp [h])
        obtain ⟨outcome, hstep, hquiet⟩ := AtEnd.handleKey hsecret hconf hed hka hkb
        simp only [hstep, Option.map_some]
        cases hquiet with
        | @more out ed' hbells hend =>
            obtain ⟨out', p'', outcome, rest, hrun, hbells'⟩ := ih p' hend ha.2 hb.2
            simp only [hrun, Option.map_some]
            refine ⟨_, _, _, _, rfl, fun a ha => ?_⟩
            rcases List.mem_append.mp ha with ha | ha
            · exact hbells a ha
            · exact hbells' a ha
        | enter hend => exact ⟨_, _, _, _, rfl, by simp⟩

end Secret

/-- The prompt for a password. -/
def passwordContext : Context := { bareContext with secret := true }

theorem password_not_echoed_pw :
    ∃ out p outcome rest,
      editRun passwordContext ⟨0, 0⟩ .blank "pv\x08w\r".toList =
        some (out, p, outcome, rest) ∧ ∀ c ∈ out, c = bell :=
  password_not_echoed rfl rfl ⟨0, 0⟩ _ ⟨rfl, Nat.zero_lt_succ 4095⟩ (by decide +kernel)
    (by decide +kernel)

-- with the left arrow the last character of the password comes to the terminal
example : (editRun passwordContext ⟨0, 0⟩ .blank "pw\x1b[Dx".toList).map (·.1) =
    some "xw\x08\x08".toList := by
  rfl

/-! ## A line that is cleared -/

/-- A byte that goes into the line; a question mark at its end asks for help. -/
def Typed (c : Char) : Prop := 32 ≤ c.toNat ∧ c.toNat < 255 ∧ c ≠ '\x7f' ∧ c ≠ '?'

instance (c : Char) : Decidable (Typed c) := inferInstanceAs (Decidable (_ ∧ _ ∧ _ ∧ _))

theorem typed_ne {c k : Char} (hc : Typed c) (hk : k.toNat < 32) : c ≠ k := by
  rintro rfl
  exact absurd hc.1 (not_le.mpr hk)

/-- A character that is typed is no key of the editor. -/
theorem handleKey_typed {c : Char} (hc : Typed c) (ctx : Context) (ed : Editor) :
    handleKey ctx ed c = typeKey ctx ed c := by
  have hdel : c ≠ '\x7f' := hc.2.2.1
  have hkey : ∀ k : Char, k.toNat < 32 → c ≠ k := fun k => typed_ne hc
  rw [handleKey, if_neg (by simp [hkey '\x00' (by decide), hkey '\n' (by decide)]),
    if_neg (hkey _ (by decide)), if_neg (hkey _ (by decide)),
    if_neg (by simp [hkey (CTRL 'W') (by decide), hkey (CTRL 'H') (by decide), hdel]),
    if_neg (hkey _ (by decide)), if_neg (hkey _ (by decide)), if_neg (hkey _ (by decide)),
    if_neg (hkey _ (by decide)), if_neg (hkey _ (by decide)), if_neg (hkey _ (by decide)),
    if_neg (by simp [hkey (CTRL 'P') (by decide), hkey (CTRL 'N') (by decide)]),
    if_neg (by simp [hkey (CTRL 'B') (by decide), hkey (CTRL 'F') (by decide),
      hkey (CTRL 'A') (by decide), hkey (CTRL 'E') (by decide)])]

theorem decode_typed {c : Char} (hc : Typed c) : decode ⟨0, 0⟩ c = (⟨0, 0⟩, some c) := by
  have hesc : c ≠ '\x1b' := typed_ne hc (by decide)
  have hle : c.toNat < 255 := hc.2.1
  rw [decode]
  simp only [ne_eq, not_true_eq_false, false_and, if_false, if_true, hesc]
  rw [if_neg (by omega)]

/-- A text that is typed at the end of the line is in the buffer, also beyond a
third of it. -/
theorem editRun_typed {ctx : Context} (hsecret : ctx.secret = false) (text rest : List Char)
    (htyped : ∀ c ∈ text, Typed c) {ed : Editor} {d : Draft} (h : Holds ed d)
    (hend : d.line.after = [])
    (hfit : d.line.text.length + text.length + 1 < CLI_MAX_LINE_LENGTH) :
    ∃ out ed' d', Holds ed' d' ∧ d'.line.text = d.line.text ++ text ∧
      editRun ctx ⟨0, 0⟩ ed (text ++ rest) =
        (editRun ctx ⟨0, 0⟩ ed' rest).map fun r => (out ++ r.1, r.2) := by
  induction text generalizing ed d with
  | nil => exact ⟨[], ed, d, h, by simp, by simp⟩
  | cons c text ih =>
      have hc := htyped c (by simp)
      rw [List.length_cons] at hfit
      obtain ⟨outcome, hstep, hfollows⟩ :=
        h.typeKey hsecret (typed_ne hc (by decide)) (by omega)
      rw [draftType, if_neg (by simp [hc.2.2.2])] at hfollows
      cases hfollows with
      | @more out ed' _ hnext =>
          have htext : (d.line.insert c).text = d.line.text ++ [c] := by
            simp [Zipper.text, Zipper.insert, hend]
          obtain ⟨out', ed'', d'', hholds, htext', hrun⟩ :=
            ih (fun a ha => htyped a (List.mem_cons_of_mem _ ha)) hnext hend
              (by simp only [htext, List.length_append, List.length_singleton]; omega)
          refine ⟨out ++ out', ed'', d'', hholds, ?_, ?_⟩
          · rw [htext', htext, List.append_assoc, List.singleton_append]
          · rw [List.cons_append, editRun, keyStep, decode_typed hc]
            simp only [handleKey_typed hc, hstep, Option.map_some, hrun, Option.map_map]
            congr 1
            funext r
            simp [List.append_assoc]

/-- A line is cleared within the buffer just where it has at most a third of it. -/
theorem clearLine_isSome_iff (ed : Editor) :
    (clearLine ed).isSome ↔ 3 * ed.l ≤ CLI_MAX_LINE_LENGTH := by
  rw [clearLine, Editor.zero]
  split
  · next h => simpa using h
  · next h => simpa using h

/-- At a prompt for commands or for a name, a line that was typed is cleared within
the buffer just where it has at most a third of it. -/
theorem clear_typed_line_iff {ctx : Context} (hsecret : ctx.secret = false) (text : List Char)
    (htyped : ∀ c ∈ text, Typed c) (hfit : text.length + 1 < CLI_MAX_LINE_LENGTH) :
    (editRun ctx ⟨0, 0⟩ .blank (text ++ [CTRL 'U'])).isSome ↔
      3 * text.length ≤ CLI_MAX_LINE_LENGTH := by
  obtain ⟨out, ed, d, hholds, htext, hrun⟩ :=
    editRun_typed hsecret text [CTRL 'U'] htyped holds_blank rfl
      (by simpa [Draft.blank, Zipper.text] using hfit)
  have hl : ed.l = text.length := by
    rw [hholds.l, htext]
    simp [Draft.blank, Zipper.text]
  have hstep : editRun ctx ⟨0, 0⟩ ed [CTRL 'U'] =
      (clearLine ed).map fun r =>
        (r.1, ⟨0, 0⟩, .more [] { r.2 with l := 0, cursor := 0 }, []) := by
    have hkey : keyStep ctx ⟨0, 0⟩ ed (CTRL 'U') =
        (clearKey ctx ed).map fun outcome => (⟨0, 0⟩, outcome) := rfl
    rw [editRun, hkey, clearKey, hsecret]
    cases clearLine ed with
    | none => rfl
    | some r => simp [editRun]
  rw [hrun, hstep, Option.isSome_map, Option.isSome_map, clearLine_isSome_iff, hl]

theorem clear_typed_line_iff_show :
    (editRun bareContext ⟨0, 0⟩ .blank ("show".toList ++ [CTRL 'U'])).isSome ↔
      3 * "show".toList.length ≤ CLI_MAX_LINE_LENGTH :=
  clear_typed_line_iff rfl _ (by decide +kernel) (by decide)

end EceLib.Cli
