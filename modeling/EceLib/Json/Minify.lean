import EceLib.Json.Print

/-!
# Minifying a text

`cJSON_Minify` of `lib/cJSON.c` drops white space and comments outside of
strings.  The main result is that it leads from what `cJSON_Print` writes to
what `cJSON_PrintUnformatted` writes.
-/

namespace EceLib.Json

open Support

variable {F : Type}

/-- The loop that runs: the outer one, or the one over a string or a comment. -/
inductive MinifyMode where
  | value
  | string
  | line
  | block

/-- `cJSON_Minify`: the text that is left, unless the terminator is passed. -/
def minifyLoop : MinifyMode → List Char → Option (List Char)
  | .value, [] => some []
  | .value, c :: json =>
      if c = ' ' ∨ c = '\t' ∨ c = '\r' ∨ c = '\n' then minifyLoop .value json
      else if c = '/' ∧ json.head? = some '/' then minifyLoop .line json
      else if c = '/' ∧ json.head? = some '*' then minifyLoop .block json
      else (minifyLoop (if c = '"' then .string else .value) json).map (c :: ·)
  -- The terminator is copied with the character in front of it.
  | .string, [] => none
  | .string, c :: json =>
      if c = '"' then (minifyLoop .value json).map (c :: ·)
      else if c = '\\' then
        match json with
        | [] => none
        | c' :: json => (minifyLoop .string json).map (c :: c' :: ·)
      else (minifyLoop .string json).map (c :: ·)
  | .line, [] => some []
  | .line, c :: json => if c = '\n' then minifyLoop .value json else minifyLoop .line json
  | .block, [] => none
  | .block, c :: json =>
      match json with
      | [] => none
      | c' :: json' =>
          if c = '*' ∧ c' = '/' then minifyLoop .value json' else minifyLoop .block (c' :: json')

def minify (json : Text) : Option (List Char) := minifyLoop .value json.chars

/-! ## What is left of a text -/

/-- Whatever follows, `t` is left of `s`. -/
def Leaves (s t : List Char) : Prop :=
  ∀ rest, minifyLoop .value (s ++ rest) = (minifyLoop .value rest).map (t ++ ·)

theorem Leaves.nil : Leaves [] [] := fun rest => by simp

theorem Leaves.append {s t s' t' : List Char} (h : Leaves s t) (h' : Leaves s' t') :
    Leaves (s ++ s') (t ++ t') := by
  intro rest
  rw [List.append_assoc, h, h', Option.map_map]
  congr 1
  funext u
  simp

/-- A character that neither starts something nor is dropped. -/
def IsPlain (c : Char) : Prop := c ∉ [' ', '\t', '\r', '\n', '/', '"']

instance (c : Char) : Decidable (IsPlain c) :=
  inferInstanceAs (Decidable (c ∉ [' ', '\t', '\r', '\n', '/', '"']))

theorem Leaves.cons {c : Char} (hc : IsPlain c) {s t : List Char} (h : Leaves s t) :
    Leaves (c :: s) (c :: t) := by
  intro rest
  simp only [IsPlain, List.mem_cons, List.not_mem_nil, or_false, not_or] at hc
  obtain ⟨hspace, htab, hreturn, hnewline, hslash, hquote⟩ := hc
  simp [minifyLoop, hspace, htab, hreturn, hnewline, hslash, hquote, h rest, Function.comp_def]

theorem leaves_plain {s : List Char} (hs : ∀ c ∈ s, IsPlain c) : Leaves s s := by
  induction s with
  | nil => exact Leaves.nil
  | cons c s ih =>
      rw [List.forall_mem_cons] at hs
      exact Leaves.cons hs.1 (ih hs.2)

theorem leaves_blank {ws : List Char} (hws : ∀ c ∈ ws, c = ' ' ∨ c = '\t' ∨ c = '\r' ∨ c = '\n') :
    Leaves ws [] := by
  induction ws with
  | nil => exact Leaves.nil
  | cons c ws ih =>
      rw [List.forall_mem_cons] at hws
      intro rest
      rw [List.cons_append, minifyLoop, if_pos hws.1, ih hws.2]

theorem leaves_formatted (fmt : Bool) {ws : List Char}
    (hws : ∀ c ∈ ws, c = ' ' ∨ c = '\t' ∨ c = '\r' ∨ c = '\n') :
    Leaves (formatted fmt ws) (formatted false ws) := by
  cases fmt with
  | false => exact Leaves.nil
  | true => exact leaves_blank hws

theorem blank_tabs (k : ℕ) :
    ∀ c ∈ List.replicate k '\t', c = ' ' ∨ c = '\t' ∨ c = '\r' ∨ c = '\n' := by
  intro c hc
  rw [(List.mem_replicate.mp hc).2]
  decide

theorem minifyLoop_backslash (c : Char) (json : List Char) :
    minifyLoop .string ('\\' :: c :: json) = (minifyLoop .string json).map ('\\' :: c :: ·) := by
  rw [minifyLoop.eq_def]
  simp

theorem minifyLoop_string {c : Char} (hquote : c ≠ '"') (hbackslash : c ≠ '\\')
    (json : List Char) :
    minifyLoop .string (c :: json) = (minifyLoop .string json).map (c :: ·) := by
  rw [minifyLoop.eq_def]
  simp [hquote, hbackslash]

/-- The escape of a character is copied as a whole. -/
theorem minifyLoop_escape (c : Char) (rest : List Char) :
    minifyLoop .string (escape c ++ rest) = (minifyLoop .string rest).map (escape c ++ ·) := by
  by_cases hmem : c ∈ ['"', '\\', '\x08', '\x0c', '\n', '\r', '\t']
  · simp only [List.mem_cons, List.not_mem_nil, or_false] at hmem
    rcases hmem with rfl | rfl | rfl | rfl | rfl | rfl | rfl <;> rfl
  · by_cases hgt : c.toNat > 31
    · simp only [List.mem_cons, List.not_mem_nil, or_false, not_or] at hmem
      simp [escape, hgt, hmem.1, hmem.2.1, minifyLoop_string]
    · have hdigit : ∀ n < 16, hexDigit n ≠ '"' ∧ hexDigit n ≠ '\\' := by decide
      have hhigh := hdigit (c.toNat / 16) (by omega)
      have hlow := hdigit (c.toNat % 16) (by omega)
      have hzero : '0' ≠ '"' ∧ '0' ≠ '\\' := by decide
      rw [escape_code hgt hmem]
      simp only [List.cons_append, List.nil_append, minifyLoop_backslash,
        minifyLoop_string hzero.1 hzero.2, minifyLoop_string hhigh.1 hhigh.2,
        minifyLoop_string hlow.1 hlow.2, Option.map_map, Function.comp_def]

theorem minifyLoop_flatMap (chars rest : List Char) :
    minifyLoop .string (chars.flatMap escape ++ '"' :: rest) =
      (minifyLoop .value rest).map (chars.flatMap escape ++ '"' :: ·) := by
  induction chars with
  | nil =>
      rw [List.flatMap_nil, List.nil_append, minifyLoop.eq_def]
      simp
  | cons c chars ih =>
      rw [List.flatMap_cons, List.append_assoc, minifyLoop_escape, ih, Option.map_map]
      simp [Function.comp_def]

theorem leaves_stringText (str : Text) : Leaves (stringText str) (stringText str) := by
  intro rest
  have hstring : minifyLoop .value ('"' :: (str.chars.flatMap escape ++ '"' :: rest)) =
      (minifyLoop .string (str.chars.flatMap escape ++ '"' :: rest)).map ('"' :: ·) := by
    rw [minifyLoop]
    simp
  have htext : ∀ s, stringText str ++ s = '"' :: (str.chars.flatMap escape ++ '"' :: s) := by
    simp [stringText]
  simp only [htext]
  rw [hstring, minifyLoop_flatMap, Option.map_map]
  rfl

/-! ## Items -/

theorem leaves_arrayEntries {fmt : Bool} {entries entries' : List (List Char)}
    (h : List.Forall₂ Leaves entries entries') :
    Leaves (arrayEntries fmt entries) (arrayEntries false entries') := by
  induction h with
  | nil => exact Leaves.nil
  | @cons entry entry' next next' hentry hnext ih =>
      cases hnext with
      | nil => exact hentry
      | cons _ _ =>
          refine hentry.append (Leaves.cons (by decide) ?_)
          exact (leaves_formatted fmt (by decide)).append ih

theorem leaves_objectEntries (depth depth' : ℕ) {fmt : Bool}
    {entries entries' : List (List Char × List Char)}
    (h : List.Forall₂ (fun e e' => Leaves e.1 e'.1 ∧ Leaves e.2 e'.2) entries entries') :
    Leaves (objectEntries depth fmt entries) (objectEntries depth' false entries') := by
  induction h with
  | nil => exact Leaves.nil
  | @cons entry entry' next next' hentry hnext ih =>
      have hcomma : Leaves (if next.isEmpty then [] else [','])
          (if next'.isEmpty then [] else [',']) := by
        cases hnext with
        | nil => exact Leaves.nil
        | cons _ _ => exact leaves_plain (s := [',']) (by decide)
      refine (leaves_formatted fmt (blank_tabs depth)).append (hentry.1.append
        (Leaves.cons (by decide) ((leaves_formatted fmt (by decide)).append
          (hentry.2.append (hcomma.append ?_)))))
      exact (leaves_formatted fmt (by decide)).append ih

/-- `printf` writes numbers in plain characters. -/
structure Double.Plain (dt : Double F) : Prop where
  fixed : ∀ k d, ∀ c ∈ dt.fixed k d, IsPlain c
  scientific : ∀ d, ∀ c ∈ dt.scientific d, IsPlain c

theorem isPlain_of_isDigit {c : Char} (hc : c.isDigit = true) : IsPlain c := by
  simp only [IsPlain, List.mem_cons, List.not_mem_nil, or_false, not_or]
  refine ⟨?_, ?_, ?_, ?_, ?_, ?_⟩
  all_goals
    rintro rfl
    cases hc

theorem isPlain_decimal (n : ℤ) : ∀ c ∈ decimal n, IsPlain c := by
  intro c hc
  rcases mem_decimal hc with hdigit | rfl
  · exact isPlain_of_isDigit hdigit
  · decide

theorem isPlain_numberText {dt : Double F} (hdt : dt.Plain) (valueint : Int32) (d : F) :
    ∀ c ∈ numberText dt valueint d, IsPlain c := by
  unfold numberText
  split
  · exact isPlain_decimal _
  · split
    · exact hdt.fixed 0 d
    · split
      · exact hdt.scientific d
      · exact hdt.fixed 6 d

mutual

theorem Value.leaves {dt : Double F} (hdt : dt.Plain) (fmt : Bool) :
    ∀ (item : Value F) (depth depth' : ℕ),
      Leaves (item.text dt depth fmt) (item.text dt depth' false)
  | .null, _, _ => leaves_plain (s := ['n', 'u', 'l', 'l']) (by decide)
  | .bool false, _, _ => leaves_plain (s := ['f', 'a', 'l', 's', 'e']) (by decide)
  | .bool true, _, _ => leaves_plain (s := ['t', 'r', 'u', 'e']) (by decide)
  | .number valueint valuedouble, _, _ =>
      leaves_plain (isPlain_numberText hdt valueint valuedouble)
  | .string valuestring, _, _ => leaves_stringText valuestring
  | .array child, depth, depth' => Leaves.cons (by decide)
      ((leaves_arrayEntries (child.leaves hdt fmt (depth + 1) (depth' + 1))).append
        (leaves_plain (by decide)))
  | .object .nil, depth, depth' => Leaves.cons (by decide)
      ((leaves_formatted fmt (List.forall_mem_cons.mpr ⟨by decide, blank_tabs (depth - 1)⟩)).append
        (leaves_plain (by decide)))
  | .object (.cons string item next), depth, depth' => Leaves.cons (by decide)
      ((leaves_formatted fmt (by decide)).append ((leaves_objectEntries (depth + 1) (depth' + 1)
        ((Members.cons string item next).leaves hdt fmt (depth + 1) (depth' + 1))).append
          ((leaves_formatted fmt (blank_tabs depth)).append (leaves_plain (by decide)))))

theorem Elements.leaves {dt : Double F} (hdt : dt.Plain) (fmt : Bool) :
    ∀ (child : Elements F) (depth depth' : ℕ),
      List.Forall₂ Leaves (child.texts dt depth fmt) (child.texts dt depth' false)
  | .nil, _, _ => .nil
  | .cons item next, depth, depth' =>
      .cons (item.leaves hdt fmt depth depth') (next.leaves hdt fmt depth depth')

theorem Members.leaves {dt : Double F} (hdt : dt.Plain) (fmt : Bool) :
    ∀ (child : Members F) (depth depth' : ℕ),
      List.Forall₂ (fun e e' => Leaves e.1 e'.1 ∧ Leaves e.2 e'.2) (child.texts dt depth fmt)
        (child.texts dt depth' false)
  | .nil, _, _ => .nil
  | .cons string item next, depth, depth' =>
      .cons ⟨leaves_stringText string, item.leaves hdt fmt depth depth'⟩
        (next.leaves hdt fmt depth depth')

end

/-- Minifying what is printed gives what is printed without format. -/
theorem minify_print {dt : Double F} (hformats : dt.Formats) (hplain : dt.Plain) (item : Value F) :
    ∃ text : Text, (print dt item).val = some text.chars ∧
      minify text = (printUnformatted dt item).val := by
  refine ⟨item.textOf hformats true, (item.writes hformats true 0).1, ?_⟩
  have hleaves := item.leaves hplain true 0 0 []
  rw [List.append_nil] at hleaves
  rw [printUnformatted, (item.writes hformats false 0).1]
  change minifyLoop .value (item.text dt 0 true) = _
  rw [hleaves]
  simp [minifyLoop]

theorem plain_intDouble : intDouble.Plain where
  fixed k n c hc := by
    rcases List.mem_append.mp hc with hdigit | hfraction
    · exact isPlain_decimal n c hdigit
    · split at hfraction
      · simp at hfraction
      · rcases List.mem_cons.mp hfraction with rfl | hzero
        · decide
        · rw [(List.mem_replicate.mp hzero).2]
          decide
  scientific n c hc := by
    rcases mem_scientificInt hc with hdigit | hmem
    · exact isPlain_of_isDigit hdigit
    · have hall : ∀ c ∈ ['-', '.', 'e', '+'], IsPlain c := by decide
      exact hall c hmem

/-- White space in a string stays. -/
theorem minify_print_member :
    ∃ text : Text, (print intDouble (.object (.cons (Text.of ['a', ' '])
        (.number (-12) (-12)) .nil))).val = some text.chars ∧
      minify text = (printUnformatted intDouble (.object (.cons (Text.of ['a', ' '])
        (.number (-12) (-12)) .nil))).val :=
  minify_print formats_intDouble plain_intDouble _

end EceLib.Json
