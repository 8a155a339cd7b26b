import EceLib.Json.Value
import EceLib.Md5

/-!
# Printing an item

`print_value` of `lib/cJSON.c` and the functions below it.  Each of them counts
first how much memory its text needs, and writes the text in a second pass.  The
main results give the text of an item and show that what was counted is enough,
at every level of the item.
-/

namespace EceLib.Json

open Support

variable {F : Type}

/-! ## The functions -/

/-- What a text is composed in. -/
inductive PrintBuf where
  | literal
  | number
  | string
  | array
  | object
deriving DecidableEq

/-- Write a text with its terminator to an allocation of `size` bytes. -/
def compose (buf : PrintBuf) (size : ℕ) (text : List Char) : Traced PrintBuf (List Char) := do
  Traced.require ⟨buf, 0, text.length + 1, size⟩
  pure text

/-- `cJSON_strdup`. -/
def strdup (str : List Char) : Traced PrintBuf (List Char) :=
  compose .literal (str.length + 1) str

/-- The number is one of `int`. -/
def printsInt (dt : Double F) (valueint : Int32) (d : F) : Bool :=
  dt.le (dt.abs (dt.sub (dt.ofInt valueint.toInt) d)) dt.epsilon &&
    dt.le d (dt.ofInt intMax) && dt.le (dt.ofInt intMin) d

def numberText (dt : Double F) (valueint : Int32) (d : F) : List Char :=
  if printsInt dt valueint d then decimal valueint.toInt
  else if dt.le (dt.abs (dt.sub (dt.floor d) d)) dt.epsilon &&
      dt.lt (dt.abs d) (dt.ofRat (10 ^ 60)) then
    dt.fixed 0 d
  else if dt.lt (dt.abs d) (dt.ofRat (1 / 10 ^ 6)) || dt.lt (dt.ofRat (10 ^ 9)) (dt.abs d) then
    dt.scientific d
  else
    dt.fixed 6 d

/-- `print_number`. -/
def printNumber (dt : Double F) (valueint : Int32) (d : F) : Traced PrintBuf (List Char) :=
  compose .number (if printsInt dt valueint d then 21 else 64) (numberText dt valueint d)

/-- The length counted for one character. -/
def escapedLen (token : Char) : ℕ :=
  1 + if token ∈ ['"', '\\', '\x08', '\x0c', '\n', '\r', '\t'] then 1
    else if token.toNat < 32 then 5 else 0

/-- What is written for one character. -/
def escape (token : Char) : List Char :=
  if token.toNat > 31 && token ≠ '"' && token ≠ '\\' then [token]
  else if token = '\\' then ['\\', '\\']
  else if token = '"' then ['\\', '"']
  else if token = '\x08' then ['\\', 'b']
  else if token = '\x0c' then ['\\', 'f']
  else if token = '\n' then ['\\', 'n']
  else if token = '\r' then ['\\', 'r']
  else if token = '\t' then ['\\', 't']
  else ['\\', 'u', '0', '0', hexDigit (token.toNat / 16), hexDigit (token.toNat % 16)]

def stringText (str : Text) : List Char := '"' :: (str.chars.flatMap escape ++ ['"'])

/-- `print_string_ptr`. -/
def printStringPtr (str : Text) : Traced PrintBuf (List Char) :=
  compose .string ((str.chars.map escapedLen).sum + 3) (stringText str)

/-- What is written only where the output is formatted. -/
def formatted (fmt : Bool) (text : List Char) : List Char := if fmt then text else []

/-- The entries of an array. -/
def arrayEntries (fmt : Bool) : List (List Char) → List Char
  | [] => []
  | [entry] => entry
  | entry :: next => entry ++ ',' :: (formatted fmt [' '] ++ arrayEntries fmt next)

def arrayText (fmt : Bool) (entries : List (List Char)) : List Char :=
  '[' :: (arrayEntries fmt entries ++ [']'])

/-- `print_array`, from the texts of the entries on. -/
def printArray (entries : List (List Char)) (fmt : Bool) : Traced PrintBuf (List Char) :=
  if entries.isEmpty then compose .array 3 ['[', ']']
  else
    let len := 5 + (entries.map fun ret => ret.length + 2 + if fmt then 1 else 0).sum
    compose .array len (arrayText fmt entries)

/-- The entries of an object, with their names. -/
def objectEntries (depth : ℕ) (fmt : Bool) : List (List Char × List Char) → List Char
  | [] => []
  | (name, entry) :: next =>
      formatted fmt (List.replicate depth '\t') ++ (name ++ ':' :: (formatted fmt ['\t'] ++
        (entry ++ ((if next.isEmpty then [] else [',']) ++
          (formatted fmt ['\n'] ++ objectEntries depth fmt next)))))

def objectText (depth : ℕ) (fmt : Bool) (entries : List (List Char × List Char)) : List Char :=
  '{' :: (formatted fmt ['\n'] ++ (objectEntries (depth + 1) fmt entries ++
    (formatted fmt (List.replicate depth '\t') ++ ['}'])))

def emptyObjectText (depth : ℕ) (fmt : Bool) : List Char :=
  '{' :: (formatted fmt ('\n' :: List.replicate (depth - 1) '\t') ++ ['}'])

/-- `print_object`, from the texts of the names and entries on. -/
def printObject (entries : List (List Char × List Char)) (depth : ℕ) (fmt : Bool) :
    Traced PrintBuf (List Char) :=
  if entries.isEmpty then
    compose .object (if fmt then depth + 4 else 3) (emptyObjectText depth fmt)
  else
    let len := 7 + (if fmt then depth + 1 else 0) + (entries.map fun entry =>
      entry.2.length + entry.1.length + 2 + if fmt then 2 + (depth + 1) else 0).sum
    compose .object len (objectText depth fmt entries)

mutual

/-- `print_value`. -/
def printValue (dt : Double F) : Value F → ℕ → Bool → Traced PrintBuf (List Char)
  | .null, _, _ => strdup ['n', 'u', 'l', 'l']
  | .bool false, _, _ => strdup ['f', 'a', 'l', 's', 'e']
  | .bool true, _, _ => strdup ['t', 'r', 'u', 'e']
  | .number valueint valuedouble, _, _ => printNumber dt valueint valuedouble
  | .string valuestring, _, _ => printStringPtr valuestring
  | .array child, depth, fmt => do
      let entries ← printElements dt child (depth + 1) fmt
      printArray entries fmt
  | .object child, depth, fmt => do
      let entries ← printMembers dt child (depth + 1) fmt
      printObject entries depth fmt

/-- The loop of `print_array` over the children. -/
def printElements (dt : Double F) : Elements F → ℕ → Bool → Traced PrintBuf (List (List Char))
  | .nil, _, _ => pure []
  | .cons child next, depth, fmt => do
      let ret ← printValue dt child depth fmt
      let entries ← printElements dt next depth fmt
      pure (ret :: entries)

/-- The loop of `print_object` over the children. -/
def printMembers (dt : Double F) :
    Members F → ℕ → Bool → Traced PrintBuf (List (List Char × List Char))
  | .nil, _, _ => pure []
  | .cons string child next, depth, fmt => do
      let str ← printStringPtr string
      let ret ← printValue dt child depth fmt
      let entries ← printMembers dt next depth fmt
      pure ((str, ret) :: entries)

end

/-- `cJSON_Print`. -/
def print (dt : Double F) (item : Value F) : Traced PrintBuf (List Char) :=
  printValue dt item 0 true

/-- `cJSON_PrintUnformatted`. -/
def printUnformatted (dt : Double F) (item : Value F) : Traced PrintBuf (List Char) :=
  printValue dt item 0 false

/-! ## The texts -/

mutual

/-- The text of an item at a depth. -/
def Value.text (dt : Double F) : Value F → ℕ → Bool → List Char
  | .null, _, _ => ['n', 'u', 'l', 'l']
  | .bool false, _, _ => ['f', 'a', 'l', 's', 'e']
  | .bool true, _, _ => ['t', 'r', 'u', 'e']
  | .number valueint valuedouble, _, _ => numberText dt valueint valuedouble
  | .string valuestring, _, _ => stringText valuestring
  | .array child, depth, fmt => arrayText fmt (child.texts dt (depth + 1) fmt)
  | .object .nil, depth, fmt => emptyObjectText depth fmt
  | .object (.cons string item next), depth, fmt =>
      objectText depth fmt ((Members.cons string item next).texts dt (depth + 1) fmt)

def Elements.texts (dt : Double F) : Elements F → ℕ → Bool → List (List Char)
  | .nil, _, _ => []
  | .cons item next, depth, fmt => item.text dt depth fmt :: next.texts dt depth fmt

def Members.texts (dt : Double F) : Members F → ℕ → Bool → List (List Char × List Char)
  | .nil, _, _ => []
  | .cons string item next, depth, fmt =>
      (stringText string, item.text dt depth fmt) :: next.texts dt depth fmt

end

/-! ## What is counted is enough -/

/-- The computation stays inside its buffers and has the result `a`. -/
def Writes {α : Type} (x : Traced PrintBuf α) (a : α) : Prop :=
  x.val = some a ∧ x.Each Access.InBounds

theorem Writes.pure {α : Type} (a : α) : Writes (Pure.pure a) a := ⟨rfl, Traced.each_pure a⟩

theorem Writes.bind {α γ : Type} {x : Traced PrintBuf α} {f : α → Traced PrintBuf γ} {a : α}
    {b : γ} (hx : Writes x a) (hf : Writes (f a) b) : Writes (x >>= f) b := by
  refine ⟨?_, ?_⟩
  · rw [Traced.val_bind, hx.1, Option.bind_some, hf.1]
  · rw [Traced.each_bind]
    refine ⟨hx.2, fun a' ha' => ?_⟩
    obtain rfl : a = a' := Option.some.inj (hx.1.symm.trans ha')
    exact hf.2

theorem writes_compose (buf : PrintBuf) {size : ℕ} {text : List Char}
    (h : text.length < size) : Writes (compose buf size text) text := by
  have hbounds : (⟨buf, 0, text.length + 1, size⟩ : Access PrintBuf).InBounds := by
    simp only [Access.InBounds]
    omega
  refine Writes.bind (a := ()) ⟨?_, ?_⟩ (Writes.pure text)
  · rw [Traced.val_require, if_pos hbounds]
  · rw [Traced.each_require]
    exact hbounds

theorem writes_strdup (str : List Char) : Writes (strdup str) str :=
  writes_compose _ (Nat.lt_succ_self _)

/-- How long `printf` makes a number, which is a text. -/
structure Double.Formats (dt : Double F) : Prop where
  fixed_zero : ∀ d, dt.lt (dt.abs d) (dt.ofRat (10 ^ 60)) = true → (dt.fixed 0 d).length ≤ 62
  fixed_six : ∀ d, dt.lt (dt.ofRat (10 ^ 9)) (dt.abs d) = false → (dt.fixed 6 d).length ≤ 18
  scientific : ∀ d, (dt.scientific d).length ≤ 14
  fixed_ne_zero : ∀ k d, ∀ c ∈ dt.fixed k d, c ≠ '\x00'
  scientific_ne_zero : ∀ d, ∀ c ∈ dt.scientific d, c ≠ '\x00'

theorem length_decimal_le {n : ℤ} {k : ℕ} (h : n.natAbs < 10 ^ k) (hk : 0 < k) :
    (decimal n).length ≤ k + 1 := by
  have hdigits : (Nat.toDigits 10 n.natAbs).length ≤ k :=
    (Nat.length_toDigits_le_iff (by decide) hk).mpr h
  unfold decimal
  split
  · rw [List.length_cons]
    omega
  · omega

theorem writes_printNumber {dt : Double F} (hdt : dt.Formats) (valueint : Int32) (d : F) :
    Writes (printNumber dt valueint d) (numberText dt valueint d) := by
  refine writes_compose _ ?_
  unfold numberText
  split
  · next hint =>
    have hlt := valueint.toInt_lt
    have hle := valueint.le_toInt
    have hlen := length_decimal_le (n := valueint.toInt) (k := 10) (by omega) (by decide)
    omega
  · split
    · next hfixed =>
      rw [Bool.and_eq_true] at hfixed
      have hlen := hdt.fixed_zero d hfixed.2
      omega
    · split
      · have hlen := hdt.scientific d
        omega
      · next hsix =>
        have hlen := hdt.fixed_six d (by simp_all)
        omega

/-- A character that is written with a code has one below 32. -/
theorem escape_code {token : Char} (hle : ¬ token.toNat > 31) (hmem : token ∉
    ['"', '\\', '\x08', '\x0c', '\n', '\r', '\t']) : escape token =
      ['\\', 'u', '0', '0', hexDigit (token.toNat / 16), hexDigit (token.toNat % 16)] := by
  simp only [List.mem_cons, List.not_mem_nil, or_false, not_or] at hmem
  obtain ⟨hquote, hbackslash, hb, hf, hn, hr, ht⟩ := hmem
  simp [escape, *]

theorem length_escape (token : Char) : (escape token).length = escapedLen token := by
  by_cases hmem : token ∈ ['"', '\\', '\x08', '\x0c', '\n', '\r', '\t']
  · rw [escapedLen, if_pos hmem]
    simp only [List.mem_cons, List.not_mem_nil, or_false] at hmem
    rcases hmem with rfl | rfl | rfl | rfl | rfl | rfl | rfl <;> rfl
  · simp only [List.mem_cons, List.not_mem_nil, or_false, not_or] at hmem
    obtain ⟨hquote, hbackslash, hb, hf, hn, hr, ht⟩ := hmem
    by_cases hlow : token.toNat < 32
    · have hle : ¬ token.toNat > 31 := by omega
      simp [escape, escapedLen, *]
    · have hgt : token.toNat > 31 := by omega
      simp [escape, escapedLen, *]

theorem length_flatMap_escape (chars : List Char) :
    (chars.flatMap escape).length = (chars.map escapedLen).sum := by
  rw [List.length_flatMap]
  exact congrArg List.sum (List.map_congr_left fun token _ => length_escape token)

/-- The text of a string fills its allocation. -/
theorem writes_printStringPtr (str : Text) : Writes (printStringPtr str) (stringText str) := by
  refine writes_compose _ ?_
  rw [stringText, List.length_cons, List.length_append, length_flatMap_escape]
  simp

theorem length_formatted (fmt : Bool) (text : List Char) :
    (formatted fmt text).length = if fmt then text.length else 0 := by
  cases fmt <;> rfl

theorem length_arrayEntries_le (fmt : Bool) (entries : List (List Char)) :
    (arrayEntries fmt entries).length ≤
      (entries.map fun ret => ret.length + 2 + if fmt then 1 else 0).sum := by
  fun_induction arrayEntries fmt entries with
  | case1 => simp
  | case2 entry =>
      simp only [List.map_cons, List.map_nil, List.sum_cons, List.sum_nil]
      omega
  | case3 entry next _ ih =>
      rw [List.map_cons, List.sum_cons]
      simp only [List.length_append, List.length_cons, length_formatted, List.length_nil]
      split <;> simp_all <;> omega

theorem writes_printArray (entries : List (List Char)) (fmt : Bool) :
    Writes (printArray entries fmt) (arrayText fmt entries) := by
  unfold printArray
  cases entries with
  | nil => exact writes_compose _ (by simp)
  | cons entry next =>
      refine writes_compose _ ?_
      have hle := length_arrayEntries_le fmt (entry :: next)
      simp only [arrayText, List.length_cons, List.length_append, List.length_nil] at hle ⊢
      omega

theorem length_objectEntries_le (depth : ℕ) (fmt : Bool) (entries : List (List Char × List Char)) :
    (objectEntries depth fmt entries).length ≤ (entries.map fun entry =>
      entry.2.length + entry.1.length + 2 + if fmt then 2 + depth else 0).sum := by
  fun_induction objectEntries depth fmt entries with
  | case1 => simp
  | case2 name entry next ih =>
      have hcomma : (if next.isEmpty then [] else [',']).length ≤ 1 := by
        split <;> simp
      rw [List.map_cons, List.sum_cons]
      simp only [List.length_append, List.length_cons, length_formatted, List.length_nil,
        List.length_replicate]
      split <;> simp_all <;> omega

theorem writes_printObject (entry : List Char × List Char) (next : List (List Char × List Char))
    (depth : ℕ) (fmt : Bool) :
    Writes (printObject (entry :: next) depth fmt) (objectText depth fmt (entry :: next)) := by
  refine writes_compose _ ?_
  have hle := length_objectEntries_le (depth + 1) fmt (entry :: next)
  simp only [objectText, List.length_cons, List.length_append, List.length_nil, length_formatted,
    List.length_replicate] at hle ⊢
  split <;> simp_all <;> omega

theorem writes_printObject_nil (depth : ℕ) (fmt : Bool) :
    Writes (printObject [] depth fmt) (emptyObjectText depth fmt) := by
  refine writes_compose _ ?_
  cases fmt with
  | false => simp [emptyObjectText, formatted]
  | true =>
      simp only [emptyObjectText, formatted, if_true, List.length_cons, List.length_append,
        List.length_replicate, List.length_nil]
      omega

mutual

/-- Printing an item writes its text. -/
theorem Value.writes {dt : Double F} (hdt : dt.Formats) (fmt : Bool) :
    ∀ (item : Value F) (depth : ℕ), Writes (printValue dt item depth fmt) (item.text dt depth fmt)
  | .null, _ => writes_strdup _
  | .bool false, _ => writes_strdup _
  | .bool true, _ => writes_strdup _
  | .number valueint valuedouble, _ => writes_printNumber hdt valueint valuedouble
  | .string valuestring, _ => writes_printStringPtr valuestring
  | .array child, depth =>
      (child.writes hdt fmt (depth + 1)).bind (writes_printArray _ fmt)
  | .object .nil, depth => Writes.bind (Writes.pure []) (writes_printObject_nil depth fmt)
  | .object (.cons string item next), depth =>
      ((Members.cons string item next).writes hdt fmt (depth + 1)).bind
        (writes_printObject _ _ depth fmt)

theorem Elements.writes {dt : Double F} (hdt : dt.Formats) (fmt : Bool) :
    ∀ (child : Elements F) (depth : ℕ),
      Writes (printElements dt child depth fmt) (child.texts dt depth fmt)
  | .nil, _ => Writes.pure []
  | .cons item next, depth =>
      (item.writes hdt fmt depth).bind ((next.writes hdt fmt depth).bind (Writes.pure _))

theorem Members.writes {dt : Double F} (hdt : dt.Formats) (fmt : Bool) :
    ∀ (child : Members F) (depth : ℕ),
      Writes (printMembers dt child depth fmt) (child.texts dt depth fmt)
  | .nil, _ => Writes.pure []
  | .cons string item next, depth =>
      (writes_printStringPtr string).bind
        ((item.writes hdt fmt depth).bind ((next.writes hdt fmt depth).bind (Writes.pure _)))

end

/-! ## The terminator ends the text -/

section Terminator

variable {dt : Double F} {fmt : Bool}

theorem ne_zero_of_mem_append {s t : List Char} (hs : ∀ c ∈ s, c ≠ '\x00')
    (ht : ∀ c ∈ t, c ≠ '\x00') : ∀ c ∈ s ++ t, c ≠ '\x00' := fun c hc =>
  (List.mem_append.mp hc).elim (hs c) (ht c)

theorem ne_zero_of_mem_formatted {fmt : Bool} {s : List Char} (hs : ∀ c ∈ s, c ≠ '\x00') :
    ∀ c ∈ formatted fmt s, c ≠ '\x00' := by
  cases fmt with
  | false => simp [formatted]
  | true => exact hs

theorem ne_zero_tabs (k : ℕ) : ∀ c ∈ List.replicate k '\t', c ≠ '\x00' := by
  intro c hc
  rw [(List.mem_replicate.mp hc).2]
  decide

theorem mem_decimal {n : ℤ} {c : Char} (hc : c ∈ decimal n) : c.isDigit = true ∨ c = '-' := by
  unfold decimal at hc
  split at hc
  · rcases List.mem_cons.mp hc with hsign | hdigit
    · exact Or.inr hsign
    · exact Or.inl (Nat.isDigit_of_mem_toDigits (by decide) (by decide) hdigit)
  · exact Or.inl (Nat.isDigit_of_mem_toDigits (by decide) (by decide) hc)

theorem ne_zero_decimal (n : ℤ) : ∀ c ∈ decimal n, c ≠ '\x00' := by
  intro c hc
  rintro rfl
  rcases mem_decimal hc with hdigit | hsign
  · cases hdigit
  · cases hsign

theorem ne_zero_numberText {dt : Double F} (hdt : dt.Formats) (valueint : Int32) (d : F) :
    ∀ c ∈ numberText dt valueint d, c ≠ '\x00' := by
  unfold numberText
  split
  · exact ne_zero_decimal _
  · split
    · exact hdt.fixed_ne_zero 0 d
    · split
      · exact hdt.scientific_ne_zero d
      · exact hdt.fixed_ne_zero 6 d

theorem ne_zero_stringText (str : Text) : ∀ c ∈ stringText str, c ≠ '\x00' := by
  have hdigit : ∀ n < 16, hexDigit n ≠ '\x00' := by decide
  have hescape : ∀ c ∈ str.chars.flatMap escape, c ≠ '\x00' := by
    intro c hc
    obtain ⟨token, htoken, hc⟩ := List.mem_flatMap.mp hc
    have hne := str.ne_zero token htoken
    by_cases hmem : token ∈ ['"', '\\', '\x08', '\x0c', '\n', '\r', '\t']
    · have hall : ∀ token ∈ ['"', '\\', '\x08', '\x0c', '\n', '\r', '\t'],
          ∀ c ∈ escape token, c ≠ '\x00' := by decide
      exact hall token hmem c hc
    · by_cases hgt : token.toNat > 31
      · simp only [List.mem_cons, List.not_mem_nil, or_false, not_or] at hmem
        rw [escape, if_pos (by simp [hgt, hmem.1, hmem.2.1]), List.mem_singleton] at hc
        exact hc ▸ hne
      · rw [escape_code hgt hmem] at hc
        simp only [List.mem_cons, List.not_mem_nil, or_false] at hc
        rcases hc with rfl | rfl | rfl | rfl | rfl | rfl
        any_goals decide
        · exact hdigit _ (by omega)
        · exact hdigit _ (by omega)
  exact List.forall_mem_cons.mpr ⟨by decide, ne_zero_of_mem_append hescape (by decide)⟩

theorem ne_zero_arrayEntries {entries : List (List Char)}
    (h : ∀ entry ∈ entries, ∀ c ∈ entry, c ≠ '\x00') :
    ∀ c ∈ arrayEntries fmt entries, c ≠ '\x00' := by
  fun_induction arrayEntries fmt entries with
  | case1 => simp
  | case2 entry => exact h entry (by simp)
  | case3 entry next _ ih =>
      rw [List.forall_mem_cons] at h
      refine ne_zero_of_mem_append h.1 (List.forall_mem_cons.mpr ⟨by decide, ?_⟩)
      exact ne_zero_of_mem_append (ne_zero_of_mem_formatted (by decide)) (ih h.2)

theorem ne_zero_objectEntries (depth : ℕ) {entries : List (List Char × List Char)}
    (h : ∀ entry ∈ entries, (∀ c ∈ entry.1, c ≠ '\x00') ∧ ∀ c ∈ entry.2, c ≠ '\x00') :
    ∀ c ∈ objectEntries depth fmt entries, c ≠ '\x00' := by
  fun_induction objectEntries depth fmt entries with
  | case1 => simp
  | case2 name entry next ih =>
      rw [List.forall_mem_cons] at h
      have hcomma : ∀ c ∈ (if next.isEmpty then [] else [',']), c ≠ '\x00' := by
        split <;> simp
      refine ne_zero_of_mem_append (ne_zero_of_mem_formatted (ne_zero_tabs depth))
        (ne_zero_of_mem_append h.1.1 (List.forall_mem_cons.mpr ⟨by decide, ?_⟩))
      refine ne_zero_of_mem_append (ne_zero_of_mem_formatted (by decide))
        (ne_zero_of_mem_append h.1.2 (ne_zero_of_mem_append hcomma ?_))
      exact ne_zero_of_mem_append (ne_zero_of_mem_formatted (by decide)) (ih h.2)

theorem ne_zero_objectText (depth : ℕ) {entries : List (List Char × List Char)}
    (h : ∀ entry ∈ entries, (∀ c ∈ entry.1, c ≠ '\x00') ∧ ∀ c ∈ entry.2, c ≠ '\x00') :
    ∀ c ∈ objectText depth fmt entries, c ≠ '\x00' := by
  refine List.forall_mem_cons.mpr ⟨by decide, ne_zero_of_mem_append
    (ne_zero_of_mem_formatted (by decide)) (ne_zero_of_mem_append
      (ne_zero_objectEntries (depth + 1) h) ?_)⟩
  exact ne_zero_of_mem_append (ne_zero_of_mem_formatted (ne_zero_tabs depth)) (by decide)

mutual

theorem Value.ne_zero_text (hdt : dt.Formats) : ∀ (item : Value F) (depth : ℕ),
    ∀ c ∈ item.text dt depth fmt, c ≠ '\x00'
  | .null, _ => by simp [Value.text]
  | .bool false, _ => by simp [Value.text]
  | .bool true, _ => by simp [Value.text]
  | .number valueint valuedouble, _ => ne_zero_numberText hdt valueint valuedouble
  | .string str, _ => ne_zero_stringText str
  | .array child, depth => List.forall_mem_cons.mpr ⟨by decide, ne_zero_of_mem_append
      (ne_zero_arrayEntries (child.ne_zero_texts hdt (depth + 1))) (by decide)⟩
  | .object .nil, depth => List.forall_mem_cons.mpr ⟨by decide, ne_zero_of_mem_append
      (ne_zero_of_mem_formatted (List.forall_mem_cons.mpr ⟨by decide, ne_zero_tabs _⟩)) (by decide)⟩
  | .object (.cons string item next), depth =>
      ne_zero_objectText depth ((Members.cons string item next).ne_zero_texts hdt (depth + 1))

theorem Elements.ne_zero_texts (hdt : dt.Formats) : ∀ (child : Elements F) (depth : ℕ),
    ∀ entry ∈ child.texts dt depth fmt, ∀ c ∈ entry, c ≠ '\x00'
  | .nil, _ => by simp [Elements.texts]
  | .cons item next, depth => List.forall_mem_cons.mpr
      ⟨item.ne_zero_text hdt depth, next.ne_zero_texts hdt depth⟩

theorem Members.ne_zero_texts (hdt : dt.Formats) : ∀ (child : Members F) (depth : ℕ),
    ∀ entry ∈ child.texts dt depth fmt,
      (∀ c ∈ entry.1, c ≠ '\x00') ∧ ∀ c ∈ entry.2, c ≠ '\x00'
  | .nil, _ => by simp [Members.texts]
  | .cons string item next, depth => List.forall_mem_cons.mpr
      ⟨⟨ne_zero_stringText string, item.ne_zero_text hdt depth⟩, next.ne_zero_texts hdt depth⟩

end

/-- The text of an item, as a character array holds it. -/
def Value.textOf (hdt : dt.Formats) (item : Value F) (fmt : Bool) : Text where
  chars := item.text dt 0 fmt
  ne_zero := item.ne_zero_text hdt 0

end Terminator

theorem mem_scientificInt {n : ℤ} {c : Char} (hc : c ∈ scientificInt n) :
    c.isDigit = true ∨ c ∈ ['-', '.', 'e', '+'] := by
  have hdigits : ∀ c ∈ Nat.toDigits 10 n.natAbs, c.isDigit = true := fun c hc =>
    Nat.isDigit_of_mem_toDigits (by decide) (by decide) hc
  simp only [scientificInt] at hc
  have hc := List.mem_of_mem_take hc
  simp only [List.mem_append, List.mem_cons] at hc
  rcases hc with ((hsign | hfirst) | rfl | hnext) | rfl | rfl | hexp
  · split at hsign <;> simp_all
  · exact Or.inl (hdigits c (List.mem_of_mem_take hfirst))
  · simp
  · rcases List.mem_append.mp (List.mem_of_mem_take hnext) with htail | hzero
    · exact Or.inl (hdigits c (List.mem_of_mem_tail htail))
    · rw [(List.mem_replicate.mp hzero).2]
      exact Or.inl (by decide)
  · simp
  · simp
  · rcases mem_decimal hexp with hdigit | rfl
    · exact Or.inl hdigit
    · simp

theorem formats_intDouble : intDouble.Formats where
  fixed_zero n hn := by
    have hbound : intDouble.ofRat (10 ^ 60) = 10 ^ 60 := by decide +kernel
    rw [hbound] at hn
    have hlt : (intDouble.abs n : ℤ) < 10 ^ 60 := by
      rwa [lt_intDouble, decide_eq_true_eq] at hn
    rw [abs_intDouble] at hlt
    have hnat : n.natAbs < 10 ^ 60 := by
      zify
      simpa using hlt
    have hlen := length_decimal_le hnat (by decide)
    change (decimal n ++ []).length ≤ 62
    rw [List.append_nil]
    omega
  fixed_six n hn := by
    have hbound : intDouble.ofRat (10 ^ 9) = 10 ^ 9 := by decide +kernel
    rw [hbound] at hn
    rw [lt_intDouble, abs_intDouble, decide_eq_false_iff_not] at hn
    have hlen := length_decimal_le (n := n) (k := 10) (by omega) (by decide)
    change (decimal n ++ '.' :: List.replicate 6 '0').length ≤ 18
    rw [List.length_append, List.length_cons, List.length_replicate]
    omega
  scientific n := List.length_take_le _ _
  fixed_ne_zero k n := by
    refine ne_zero_of_mem_append (ne_zero_decimal n) ?_
    split
    · simp
    · exact List.forall_mem_cons.mpr ⟨by decide, fun c hc => by
        rw [(List.mem_replicate.mp hc).2]
        decide⟩
  scientific_ne_zero n c hc := by
    rintro rfl
    rcases mem_scientificInt hc with hdigit | hmem
    · cases hdigit
    · exact absurd hmem (by decide)

end EceLib.Json
