import EceLib.Json.Parse
import EceLib.Json.Print
import Mathlib.Data.List.DropRight

/-!
# What is printed is parsed again

The text of an item, formatted or not and at any depth, is parsed to the item,
whatever text follows that cannot be taken for a part of it.  Numbers are whole
and of at most 53 bits, since `%f` and `%e` drop digits of the others.
-/

namespace EceLib.Json

open Support

variable {F : Type}

/-! ## Strings -/

theorem hexValue_hexDigit {n : ℕ} (h : n < 16) : hexValue (hexDigit n) = some n := by
  have hall : ∀ n < 16, hexValue (hexDigit n) = some n := by decide
  exact hall n h

/-- The second loop takes the escape of a character for the character. -/
theorem unescape_escape {c : Char} (hc : c ≠ '\x00') (ptr : List Char) :
    unescape (escape c ++ ptr) = emit [c] (unescape ptr) := by
  by_cases hmem : c ∈ ['"', '\\', '\x08', '\x0c', '\n', '\r', '\t']
  · simp only [List.mem_cons, List.not_mem_nil, or_false] at hmem
    rcases hmem with rfl | rfl | rfl | rfl | rfl | rfl | rfl <;> rfl
  · by_cases hgt : c.toNat > 31
    · simp only [List.mem_cons, List.not_mem_nil, or_false, not_or] at hmem
      simp [escape, hgt, hmem.1, hmem.2.1, unescape_cons]
    · rw [escape_code hgt hmem]
      have hpos : c.toNat ≠ 0 := fun h => hc (Char.toNat_inj.mp h)
      have hcode : parseHex4 '0' '0' (hexDigit (c.toNat / 16)) (hexDigit (c.toNat % 16)) =
          c.toNat := by
        have hzero : hexValue '0' = some 0 := rfl
        rw [parseHex4, hzero, hexValue_hexDigit (by omega), hexValue_hexDigit (by omega)]
        simp only [Option.elim_some]
        omega
      have hlow : ¬ c.toNat ≥ 0xDC00 := by omega
      have hhigh : ¬ c.toNat ≥ 0xD800 := by omega
      have hbyte : utf8 c.toNat = [c] := by
        rw [utf8, if_pos (by omega), Char.ofNat_toNat]
      simp [unescape, hcode, hlow, hhigh, hpos, hbyte]

/-- The first loop counts at least one for the escape of a character. -/
theorem countString_escape (c : Char) {ptr : List Char} {len : ℕ} (h : countString ptr = .ok len) :
    ∃ k, countString (escape c ++ ptr) = .ok (k + len) ∧ 1 ≤ k := by
  by_cases hmem : c ∈ ['"', '\\', '\x08', '\x0c', '\n', '\r', '\t']
  · refine ⟨1, ?_, le_rfl⟩
    simp only [List.mem_cons, List.not_mem_nil, or_false] at hmem
    rcases hmem with rfl | rfl | rfl | rfl | rfl | rfl | rfl <;>
      simp [escape, h, Except.map]
  · by_cases hgt : c.toNat > 31
    · simp only [List.mem_cons, List.not_mem_nil, or_false, not_or] at hmem
      exact ⟨1, by simp [escape, hgt, hmem.1, hmem.2.1, countString_cons, h, Except.map], le_rfl⟩
    · rw [escape_code hgt hmem]
      have hdigit : ∀ n < 16, hexDigit n ≠ '"' ∧ hexDigit n ≠ '\\' := by decide
      have hhigh := hdigit (c.toNat / 16) (by omega)
      have hlow := hdigit (c.toNat % 16) (by omega)
      have hzero : '0' ≠ '"' ∧ '0' ≠ '\\' := by decide
      refine ⟨5, ?_, by decide⟩
      simp only [List.cons_append, List.nil_append, countString_backslash,
        countString_cons hzero.1 hzero.2, countString_cons hhigh.1 hhigh.2,
        countString_cons hlow.1 hlow.2, h, Except.map, Except.ok.injEq]
      omega

theorem unescape_flatMap {chars : List Char} (hchars : ∀ c ∈ chars, c ≠ '\x00') (rest : List Char) :
    unescape (chars.flatMap escape ++ '"' :: rest) = .ok (chars, rest) := by
  induction chars with
  | nil => simp
  | cons c chars ih =>
      rw [List.forall_mem_cons] at hchars
      rw [List.flatMap_cons, List.append_assoc, unescape_escape hchars.1, ih hchars.2]
      rfl

theorem countString_flatMap (chars rest : List Char) :
    ∃ len, countString (chars.flatMap escape ++ '"' :: rest) = .ok len ∧ chars.length ≤ len := by
  induction chars with
  | nil => exact ⟨0, by simp, le_rfl⟩
  | cons c chars ih =>
      obtain ⟨len, hlen, hle⟩ := ih
      obtain ⟨k, hk, hpos⟩ := countString_escape c hlen
      refine ⟨k + len, ?_, ?_⟩
      · rw [List.flatMap_cons, List.append_assoc, hk]
      · rw [List.length_cons]
        omega

/-- The memory that is counted is enough, and the string is found again. -/
theorem parseString_stringText (str : Text) (rest : List Char) :
    parseString (stringText str ++ rest) = .ok (str, rest) := by
  obtain ⟨len, hlen, hle⟩ := countString_flatMap str.chars rest
  have hread := unescape_flatMap str.ne_zero rest
  have htail : (stringText str ++ rest).tail = str.chars.flatMap escape ++ '"' :: rest := by
    simp [stringText]
  have hhead : (stringText str ++ rest).head? = some '"' := rfl
  rw [parseString, if_pos hhead, htail, hlen, hread]
  simp [bind, Except.bind, hle, pure, Except.pure]

/-! ## Numbers -/

/-- A whole number that a `double` holds exactly. -/
def Small (n : ℤ) : Prop := n.natAbs ≤ 2 ^ 53

instance (n : ℤ) : Decidable (Small n) := inferInstanceAs (Decidable (n.natAbs ≤ 2 ^ 53))

/-- Whole numbers of at most 53 bits are computed and written exactly.  The
product of zero and a negative number is another zero than the one that is
converted from an integer, and nothing is said of it. -/
structure Double.Exact (dt : Double F) : Prop where
  add : ∀ m n : ℤ, Small m → Small n → Small (m + n) →
    dt.add (dt.ofInt m) (dt.ofInt n) = dt.ofInt (m + n)
  sub : ∀ m n : ℤ, Small m → Small n → Small (m - n) →
    dt.sub (dt.ofInt m) (dt.ofInt n) = dt.ofInt (m - n)
  mul : ∀ m n : ℤ, Small m → Small n → Small (m * n) → (m * n = 0 → 0 ≤ m ∧ 0 ≤ n) →
    dt.mul (dt.ofInt m) (dt.ofInt n) = dt.ofInt (m * n)
  abs : ∀ n : ℤ, Small n → dt.abs (dt.ofInt n) = dt.ofInt n.natAbs
  floor : ∀ n : ℤ, Small n → dt.floor (dt.ofInt n) = dt.ofInt n
  pow_zero : dt.pow (dt.ofInt 10) (dt.ofInt 0) = dt.ofInt 1
  le : ∀ m n : ℤ, Small m → Small n → dt.le (dt.ofInt m) (dt.ofInt n) = decide (m ≤ n)
  zero_le_epsilon : dt.le (dt.ofInt 0) dt.epsilon = true
  lt : ∀ n : ℤ, Small n → dt.lt (dt.ofInt n) (dt.ofRat (10 ^ 60)) = true
  toInt : ∀ n : ℤ, intMin ≤ n → n ≤ intMax → (dt.toInt (dt.ofInt n)).toInt = n
  fixed : ∀ n : ℤ, Small n → dt.fixed 0 (dt.ofInt n) = decimal n

/-- A whole number is written with all its digits, as an `int` or as a `double`. -/
theorem numberText_ofInt {dt : Double F} (hdt : dt.Exact) {n : ℤ} (hn : Small n) :
    numberText dt (dt.toInt (dt.ofInt n)) (dt.ofInt n) = decimal n := by
  have hmax : Small intMax := by decide
  have hmin : Small intMin := by decide
  have hzero : Small 0 := by decide
  unfold numberText printsInt
  rw [hdt.le _ _ hn hmax, hdt.le _ _ hmin hn]
  by_cases hint : intMin ≤ n ∧ n ≤ intMax
  · rw [hdt.toInt n hint.1 hint.2, hdt.sub _ _ hn hn (by rwa [sub_self]), sub_self,
      hdt.abs 0 hzero, Int.natAbs_zero, Nat.cast_zero, hdt.zero_le_epsilon,
      if_pos (by simp [hint.1, hint.2])]
  · have hfirst : ¬ (dt.le (dt.abs (dt.sub (dt.ofInt (dt.toInt (dt.ofInt n)).toInt) (dt.ofInt n)))
        dt.epsilon && decide (n ≤ intMax) && decide (intMin ≤ n)) = true := by
      simp only [Bool.and_eq_true, decide_eq_true_eq]
      exact fun h => hint ⟨h.2, h.1.2⟩
    have habs : Small n.natAbs := hn
    rw [if_neg hfirst, hdt.floor n hn, hdt.sub _ _ hn hn (by rwa [sub_self]), sub_self,
      hdt.abs 0 hzero, Int.natAbs_zero, Nat.cast_zero, hdt.zero_le_epsilon, hdt.abs n hn,
      hdt.lt _ habs, Bool.true_and, if_pos rfl, hdt.fixed n hn]

/-- What ends a number. -/
def EndsNumber (rest : List Char) : Prop :=
  ∀ c, rest.head? = some c → c.isDigit = false ∧ c ≠ '.' ∧ c ≠ 'e' ∧ c ≠ 'E'

theorem le_ofDigitChars (digits : List Char) (k : ℕ) : k ≤ Nat.ofDigitChars 10 digits k := by
  induction digits generalizing k with
  | nil => simp
  | cons c digits ih =>
      rw [Nat.ofDigitChars_cons]
      exact le_trans (by omega) (ih _)

theorem isDigit_le {c : Char} (hc : c.isDigit = true) : 48 ≤ c.toNat ∧ c.toNat ≤ 57 := by
  simpa [Char.isDigit, UInt32.le_iff_toNat_le] using hc

/-- The digits of a whole number are read exactly. -/
theorem readDigits_ofInt {dt : Double F} (hdt : dt.Exact) (digits : List Char)
    (hdigits : ∀ c ∈ digits, c.isDigit = true) (k : ℕ)
    (h : Nat.ofDigitChars 10 digits k ≤ 2 ^ 53) :
    readDigits dt (dt.ofInt k) digits = dt.ofInt (Nat.ofDigitChars 10 digits k : ℕ) := by
  induction digits generalizing k with
  | nil => simp [readDigits]
  | cons c digits ih =>
      rw [List.forall_mem_cons] at hdigits
      rw [Nat.ofDigitChars_cons] at h ⊢
      have hle := (le_ofDigitChars digits _).trans h
      have hc := isDigit_le hdigits.1
      have hzero : '0'.toNat = 48 := rfl
      have hvalue : digitValue c = ((c.toNat - '0'.toNat : ℕ) : ℤ) := by
        rw [digitValue]
        omega
      have hstep : dt.add (dt.mul (dt.ofInt k) (dt.ofInt 10)) (dt.ofInt (digitValue c)) =
          dt.ofInt (10 * k + (c.toNat - '0'.toNat) : ℕ) := by
        have hk : Small k := by
          unfold Json.Small
          omega
        have hmul : Small (k * 10) := by
          unfold Json.Small
          omega
        have hdigit : Small ((c.toNat - '0'.toNat : ℕ) : ℤ) := by
          unfold Json.Small
          omega
        have hsum : Small (k * 10 + ((c.toNat - '0'.toNat : ℕ) : ℤ)) := by
          unfold Json.Small
          omega
        rw [hdt.mul _ _ hk (by decide) hmul fun _ => ⟨Int.natCast_nonneg k, by decide⟩, hvalue,
          hdt.add _ _ hmul hdigit hsum]
        congr 1
        push_cast
        ring
      rw [readDigits, List.foldl_cons, hstep]
      exact ih hdigits.2 _ h

/-- The first digit of a positive number is none of the zeros that are passed. -/
theorem head?_toDigits {m : ℕ} (hm : 0 < m) :
    ((Nat.toDigits 10 m).head?.any fun c => c ≥ '1' && c ≤ '9') = true := by
  induction m using Nat.strong_induction_on with
  | _ m ih =>
      by_cases hlt : m < 10
      · have hdigits : ∀ m < 10, 0 < m →
            ((Nat.toDigits 10 m).head?.any fun c => c ≥ '1' && c ≤ '9') = true := by decide
        exact hdigits m hlt hm
      · have hfirst := ih (m / 10) (by omega) (by omega)
        rw [Nat.toDigits_of_base_le (by decide) (by omega), List.head?_append]
        cases hhead : (Nat.toDigits 10 (m / 10)).head? with
        | none => simp [hhead] at hfirst
        | some c => simpa [hhead] using hfirst

theorem isDigit_of_mem_toDigits {m : ℕ} {c : Char} (hc : c ∈ Nat.toDigits 10 m) :
    c.isDigit = true :=
  Nat.isDigit_of_mem_toDigits (by decide) (by decide) hc

theorem toDigits_eq_cons (m : ℕ) :
    ∃ c digits, Nat.toDigits 10 m = c :: digits ∧ c.isDigit = true := by
  cases hdigits : Nat.toDigits 10 m with
  | nil => exact absurd hdigits (List.length_pos_iff.mp Nat.length_toDigits_pos)
  | cons c digits => exact ⟨c, digits, rfl, isDigit_of_mem_toDigits (m := m) (by simp [hdigits])⟩

theorem EndsNumber.takeWhile_append {rest : List Char} (hrest : EndsNumber rest)
    (digits : List Char) (hdigits : ∀ c ∈ digits, c.isDigit = true) :
    (digits ++ rest).takeWhile Char.isDigit = digits ∧
      (digits ++ rest).dropWhile Char.isDigit = rest := by
  rw [List.takeWhile_append_of_pos hdigits, List.dropWhile_append_of_pos hdigits]
  cases rest with
  | nil => simp
  | cons c rest => simp [(hrest c rfl).1]

theorem parseWhole_toDigits {dt : Double F} (hdt : dt.Exact) {m : ℕ} (hm : m ≤ 2 ^ 53)
    {rest : List Char} (hrest : EndsNumber rest) :
    parseWhole dt (Nat.toDigits 10 m ++ rest) = (dt.ofInt m, rest) := by
  rcases Nat.eq_zero_or_pos m with rfl | hpos
  · have hnone : (rest.head?.any fun c => c ≥ '1' && c ≤ '9') = false := by
      cases rest with
      | nil => rfl
      | cons c rest =>
          have hdigit := (hrest c rfl).1
          have hzero : '0'.val ≤ '1'.val := by decide
          simp only [List.head?_cons, Option.any_some, Bool.and_eq_false_iff,
            decide_eq_false_iff_not]
          simp only [Char.isDigit, Bool.and_eq_false_iff, decide_eq_false_iff_not] at hdigit
          exact hdigit.imp (fun h hle => h (UInt32.le_trans hzero hle)) id
    have hzero : Nat.toDigits 10 0 = ['0'] := rfl
    simp only [parseWhole, hzero, List.singleton_append, List.head?_cons, if_true, List.tail_cons,
      hnone]
    rfl
  · have hfirst := head?_toDigits hpos
    obtain ⟨c, hc⟩ : ∃ c, (Nat.toDigits 10 m).head? = some c := by
      cases hhead : (Nat.toDigits 10 m).head? with
      | none => simp [hhead] at hfirst
      | some c => exact ⟨c, rfl⟩
    rw [hc, Option.any_some] at hfirst
    have hhead : (Nat.toDigits 10 m ++ rest).head? = some c := by
      rw [List.head?_append, hc]
      rfl
    have hne : ¬ (Nat.toDigits 10 m ++ rest).head? = some '0' := by
      rw [hhead, Option.some.injEq]
      rintro rfl
      exact absurd hfirst (by decide)
    obtain ⟨htake, hdrop⟩ := hrest.takeWhile_append (Nat.toDigits 10 m)
      fun c => isDigit_of_mem_toDigits
    have hread := readDigits_ofInt hdt (Nat.toDigits 10 m)
      (fun c => isDigit_of_mem_toDigits) 0 (by rwa [Nat.ofDigitChars_ten_toDigits])
    rw [Nat.ofDigitChars_ten_toDigits] at hread
    simp only [parseWhole, if_neg hne]
    rw [hhead, Option.any_some, if_pos hfirst, htake, hdrop]
    exact congrArg (·, rest) hread

theorem EndsNumber.parseFraction {rest : List Char} (hrest : EndsNumber rest) :
    parseFraction rest = ([], rest) := by
  rw [Json.parseFraction, if_neg fun h => (hrest _ h.1).2.1 rfl]

theorem EndsNumber.parseExponent {rest : List Char} (hrest : EndsNumber rest) :
    parseExponent rest = (0, rest) := by
  rw [Json.parseExponent, if_neg]
  rintro (he | he)
  · exact (hrest _ he).2.2.1 rfl
  · exact (hrest _ he).2.2.2 rfl

/-- A whole number is found again. -/
theorem parseNumber_decimal {dt : Double F} (hdt : dt.Exact) {n : ℤ} (hn : Small n)
    {rest : List Char} (hrest : EndsNumber rest) :
    parseNumber dt (decimal n ++ rest) = (createNumber dt (dt.ofInt n), rest) := by
  have hone : Small 1 := by decide
  have hwhole := parseWhole_toDigits hdt (m := n.natAbs) hn hrest
  have habs : Small n.natAbs := hn
  unfold parseNumber decimal
  by_cases hneg : n < 0
  · have hminus : dt.mul (dt.ofInt (-1)) (dt.ofInt n.natAbs) = dt.ofInt n := by
      have hsum : -1 * (n.natAbs : ℤ) = n := by omega
      rw [hdt.mul _ _ (by decide) habs (by rwa [hsum]) (by omega), hsum]
    simp only [hneg, if_true, List.cons_append, List.head?_cons, List.tail_cons, hwhole,
      hrest.parseFraction, hrest.parseExponent, readDigits, List.foldl_nil, List.length_nil,
      Nat.cast_zero, sub_zero, hdt.pow_zero, hminus]
    rw [hdt.mul n 1 hn hone (by rwa [mul_one]) (by omega), mul_one]
  · have hplus : dt.mul (dt.ofInt 1) (dt.ofInt n.natAbs) = dt.ofInt n := by
      have hsum : 1 * (n.natAbs : ℤ) = n := by omega
      rw [hdt.mul _ _ hone habs (by rwa [hsum]) (by omega), hsum]
    have hhead : (Nat.toDigits 10 n.natAbs ++ rest).head? ≠ some '-' := by
      obtain ⟨c, digits, hdigits, hc⟩ := toDigits_eq_cons n.natAbs
      rw [hdigits, List.cons_append, List.head?_cons, ne_eq, Option.some.injEq]
      rintro rfl
      cases hc
    simp only [hneg, if_false, hhead, hwhole,
      hrest.parseFraction, hrest.parseExponent, readDigits, List.foldl_nil, List.length_nil,
      Nat.cast_zero, sub_zero, hdt.pow_zero, hplus]
    rw [hdt.mul n 1 hn hone (by rwa [mul_one]) (by omega), mul_one]

/-- The text of a whole number starts with a sign or a digit. -/
theorem decimal_eq_cons (n : ℤ) :
    ∃ c s, decimal n = c :: s ∧ (c = '-' || c.isDigit) = true := by
  obtain ⟨c, digits, hdigits, hc⟩ := toDigits_eq_cons n.natAbs
  unfold decimal
  split
  · exact ⟨'-', _, rfl, rfl⟩
  · exact ⟨c, digits, hdigits, by simp [hc]⟩

/-! ## White space -/

theorem skip_cons {c : Char} (hc : 32 < c.toNat) (s : List Char) : skip (c :: s) = c :: s := by
  rw [skip, List.dropWhile_cons_of_neg]
  simpa using hc

theorem skip_append {ws : List Char} (hws : ∀ c ∈ ws, c.toNat ≤ 32) (s : List Char) :
    skip (ws ++ s) = skip s :=
  List.dropWhile_append_of_pos fun c hc => decide_eq_true (hws c hc)

theorem skip_formatted (fmt : Bool) {ws : List Char} (hws : ∀ c ∈ ws, c.toNat ≤ 32)
    (s : List Char) : skip (formatted fmt ws ++ s) = skip s := by
  cases fmt with
  | false => rfl
  | true => exact skip_append hws s

theorem skip_skip (s : List Char) : skip (skip s) = skip s :=
  List.dropWhile_idempotent _ _

theorem parseElements_skip (dt : Double F) (fuel : ℕ) (s : List Char) :
    parseElements dt fuel (skip s) = parseElements dt fuel s := by
  cases fuel with
  | zero => rfl
  | succ fuel => rw [parseElements, parseElements, skip_skip]

theorem parseMembers_skip (dt : Double F) (fuel : ℕ) (s : List Char) :
    parseMembers dt fuel (skip s) = parseMembers dt fuel s := by
  cases fuel with
  | zero => rfl
  | succ fuel => rw [parseMembers, parseMembers, skip_skip]

/-! ## Items -/

mutual

/-- Every number in the item is whole, and its `int` is the one it is converted
to. -/
def Value.Whole (dt : Double F) : Value F → Prop
  | .null => True
  | .bool _ => True
  | .number valueint valuedouble =>
      ∃ n, Small n ∧ valuedouble = dt.ofInt n ∧ valueint = dt.toInt valuedouble
  | .string _ => True
  | .array child => child.Whole dt
  | .object child => child.Whole dt

def Elements.Whole (dt : Double F) : Elements F → Prop
  | .nil => True
  | .cons item next => item.Whole dt ∧ next.Whole dt

def Members.Whole (dt : Double F) : Members F → Prop
  | .nil => True
  | .cons _ item next => item.Whole dt ∧ next.Whole dt

end

/-- The first character of an item. -/
theorem Value.text_eq_cons {dt : Double F} (hdt : dt.Exact) {item : Value F} (h : item.Whole dt)
    (depth : ℕ) (fmt : Bool) :
    ∃ c s, item.text dt depth fmt = c :: s ∧ 32 < c.toNat ∧ c ≠ ']' := by
  cases item with
  | null => exact ⟨_, _, rfl, by decide, by decide⟩
  | bool b => cases b <;> exact ⟨_, _, rfl, by decide, by decide⟩
  | number valueint valuedouble =>
      obtain ⟨n, hn, rfl, rfl⟩ := h
      obtain ⟨c, s, hs, hc⟩ := decimal_eq_cons n
      refine ⟨c, s, (numberText_ofInt hdt hn).trans hs, ?_, ?_⟩
      · rw [Bool.or_eq_true, decide_eq_true_eq] at hc
        rcases hc with rfl | hc
        · decide
        · have hzero := isDigit_le hc
          omega
      · rintro rfl
        cases hc
  | string valuestring => exact ⟨_, _, rfl, by decide, by decide⟩
  | array child => exact ⟨_, _, rfl, by decide, by decide⟩
  | object child => cases child <;> exact ⟨_, _, rfl, by decide, by decide⟩

theorem Double.Exact.skip_text {dt : Double F} (hdt : dt.Exact) {item : Value F}
    (h : item.Whole dt) (depth : ℕ) (fmt : Bool) (rest : List Char) :
    skip (item.text dt depth fmt ++ rest) = item.text dt depth fmt ++ rest := by
  obtain ⟨c, s, hs, hc, -⟩ := Value.text_eq_cons hdt h depth fmt
  rw [hs, List.cons_append, skip_cons hc]

section Items

variable {dt : Double F} {fmt : Bool}

theorem parseValue_string (str : Text) (fuel : ℕ) (rest : List Char) :
    parseValue dt (fuel + 1) (stringText str ++ rest) = .ok (.string str, rest) := by
  have hread := parseString_stringText str rest
  rw [stringText, List.cons_append] at hread ⊢
  simp only [parseValue, List.isPrefixOf, List.head?_cons, if_true, hread]
  rfl

theorem parseValue_array (fuel : ℕ) (s : List Char) :
    parseValue dt (fuel + 1) ('[' :: s) =
      if (skip s).head? = some ']' then .ok (.array .nil, (skip s).tail)
      else (parseElements dt fuel s).bind fun r => closeChildren ']' (.array r.1) r.2 := by
  rw [← parseElements_skip]
  rfl

theorem parseValue_object (fuel : ℕ) (s : List Char) :
    parseValue dt (fuel + 1) ('{' :: s) =
      if (skip s).head? = some '}' then .ok (.object .nil, (skip s).tail)
      else (parseMembers dt fuel s).bind fun r => closeChildren '}' (.object r.1) r.2 := by
  rw [← parseMembers_skip]
  rfl

theorem parseElements_formatted {ws : List Char} (hws : ∀ c ∈ ws, c.toNat ≤ 32) (fuel : ℕ)
    (s : List Char) : parseElements dt fuel (formatted fmt ws ++ s) = parseElements dt fuel s := by
  rw [← parseElements_skip, skip_formatted fmt hws, parseElements_skip]

theorem parseMembers_formatted {ws : List Char} (hws : ∀ c ∈ ws, c.toNat ≤ 32) (fuel : ℕ)
    (s : List Char) : parseMembers dt fuel (formatted fmt ws ++ s) = parseMembers dt fuel s := by
  rw [← parseMembers_skip, skip_formatted fmt hws, parseMembers_skip]

theorem toNat_tabs_le (k : ℕ) : ∀ c ∈ List.replicate k '\t', c.toNat ≤ 32 := by
  intro c hc
  rw [(List.mem_replicate.mp hc).2]
  decide

theorem parseValue_number (hdt : dt.Exact) {n : ℤ} (hn : Small n) (fuel : ℕ) {rest : List Char}
    (hrest : EndsNumber rest) :
    parseValue dt (fuel + 1) (decimal n ++ rest) = .ok (createNumber dt (dt.ofInt n), rest) := by
  have hread := parseNumber_decimal hdt hn hrest
  obtain ⟨c, s, hs, hc⟩ := decimal_eq_cons n
  rw [hs, List.cons_append] at hread ⊢
  have hn : c ≠ 'n' := by
    rintro rfl
    cases hc
  have hf : c ≠ 'f' := by
    rintro rfl
    cases hc
  have ht : c ≠ 't' := by
    rintro rfl
    cases hc
  have hquote : c ≠ '"' := by
    rintro rfl
    cases hc
  simp only [parseValue, List.isPrefixOf, beq_eq_false_iff_ne.mpr hn.symm,
    beq_eq_false_iff_ne.mpr hf.symm, beq_eq_false_iff_ne.mpr ht.symm, Bool.false_and,
    Bool.false_eq_true, if_false, List.head?_cons, Option.some.injEq, hquote, Option.any_some, hc,
    if_true, hread]

theorem skip_stringText (str : Text) (rest : List Char) :
    skip (stringText str ++ rest) = stringText str ++ rest :=
  skip_cons (by decide) _

/-- One turn of the loop of `parse_array`. -/
theorem parseElements_entry (hdt : dt.Exact) {fuel depth : ℕ} {item : Value F}
    (hitem : item.Whole dt) {after : List Char}
    (hvalue : parseValue dt fuel (item.text dt depth fmt ++ after) = .ok (item, after)) :
    parseElements dt (fuel + 1) (item.text dt depth fmt ++ after) =
      if (skip after).head? = some ',' then
        (parseElements dt fuel (skip after).tail).map fun r => (.cons item r.1, r.2)
      else .ok (.cons item .nil, skip after) := by
  rw [parseElements, hdt.skip_text hitem, hvalue]
  simp only [bind, Except.bind, pure, Except.pure]
  split
  · cases parseElements dt fuel (skip after).tail <;> rfl
  · rfl

/-- One turn of the loop of `parse_object`. -/
theorem parseMembers_entry (hdt : dt.Exact) {fuel depth : ℕ} (string : Text) {item : Value F}
    (hitem : item.Whole dt) {after : List Char}
    (hvalue : parseValue dt fuel (item.text dt depth fmt ++ after) = .ok (item, after)) :
    parseMembers dt (fuel + 1) (formatted fmt (List.replicate depth '\t') ++ (stringText string ++
        ':' :: (formatted fmt ['\t'] ++ (item.text dt depth fmt ++ after)))) =
      if (skip after).head? = some ',' then
        (parseMembers dt fuel (skip after).tail).map fun r => (.cons string item r.1, r.2)
      else .ok (.cons string item .nil, skip after) := by
  have hstring := parseString_stringText string
    (':' :: (formatted fmt ['\t'] ++ (item.text dt depth fmt ++ after)))
  have hcolon : ∀ s, skip (':' :: s) = ':' :: s := fun s => skip_cons (by decide) s
  rw [parseMembers_formatted (toNat_tabs_le depth), parseMembers, skip_stringText, hstring]
  simp only [bind, Except.bind, pure, Except.pure, hcolon, List.head?_cons, ne_eq, not_true,
    if_false, List.tail_cons]
  rw [skip_formatted fmt (by decide), hdt.skip_text hitem, hvalue]
  simp only
  split
  · cases parseMembers dt fuel (skip after).tail <;> rfl
  · rfl

theorem endsNumber_cons {c : Char} (hdigit : c.isDigit = false) (hpoint : c ≠ '.') (he : c ≠ 'e')
    (hE : c ≠ 'E') (s : List Char) : EndsNumber (c :: s) := by
  intro c' hc
  obtain rfl : c = c' := Option.some.inj hc
  exact ⟨hdigit, hpoint, he, hE⟩

theorem endsNumber_formatted {ws : List Char} (hws : ∀ c ∈ ws, c.toNat ≤ 32) {s : List Char}
    (hs : EndsNumber s) : EndsNumber (formatted fmt ws ++ s) := by
  cases fmt with
  | false => exact hs
  | true =>
      cases ws with
      | nil => exact hs
      | cons c ws =>
          have hc := hws c List.mem_cons_self
          refine endsNumber_cons ?_ ?_ ?_ ?_ (ws ++ s)
          · rw [← Bool.not_eq_true]
            intro hdigit
            have hle := (isDigit_le hdigit).1
            omega
          all_goals
            rintro rfl
            exact absurd hc (by decide)

theorem arrayEntries_cons (fmt : Bool) (entry : List Char) (next : List (List Char)) :
    ∃ t, arrayEntries fmt (entry :: next) = entry ++ t := by
  cases next with
  | nil => exact ⟨[], (List.append_nil _).symm⟩
  | cons entry' next => exact ⟨_, rfl⟩

mutual

/-- An item is read up to the end of its text. -/
theorem Value.parse_text (hdt : dt.Exact) : ∀ (item : Value F), item.Whole dt →
    ∀ (depth : ℕ) (rest : List Char), EndsNumber rest → ∀ (fuel : ℕ),
      2 * (item.text dt depth fmt).length + 1 ≤ fuel →
      parseValue dt fuel (item.text dt depth fmt ++ rest) = .ok (item, rest)
  | _, _, _, _, _, 0, hfuel => absurd hfuel (by omega)
  | .null, _, _, _, _, _ + 1, _ => rfl
  | .bool false, _, _, _, _, _ + 1, _ => rfl
  | .bool true, _, _, _, _, _ + 1, _ => rfl
  | .number _ _, ⟨n, hn, hd, hi⟩, _, _, hrest, fuel + 1, _ => by
      subst hi hd
      rw [Value.text, numberText_ofInt hdt hn]
      exact parseValue_number hdt hn fuel hrest
  | .string str, _, _, rest, _, fuel + 1, _ => parseValue_string str fuel rest
  | .array .nil, _, depth, rest, _, fuel + 1, _ => rfl
  | .array (.cons item next), h, depth, rest, _, fuel + 1, hfuel => by
      have hnext := Elements.parse_texts hdt item next h.1 h.2 (depth + 1) rest fuel (by
        simp only [Value.text, arrayText, List.length_cons, List.length_append] at hfuel
        omega)
      obtain ⟨c, s, hs, hc, hne⟩ := Value.text_eq_cons hdt h.1 (depth + 1) fmt
      obtain ⟨t, ht⟩ := arrayEntries_cons fmt (item.text dt (depth + 1) fmt)
        (next.texts dt (depth + 1) fmt)
      have hskip : (skip (arrayEntries fmt ((Elements.cons item next).texts dt (depth + 1) fmt) ++
          ']' :: rest)).head? ≠ some ']' := by
        rw [Elements.texts, ht, hs, List.cons_append, List.cons_append, skip_cons hc]
        simpa using hne
      rw [Value.text, arrayText, List.cons_append, List.append_assoc, List.singleton_append,
        parseValue_array, if_neg hskip, hnext]
      rfl
  | .object .nil, _, depth, rest, _, fuel + 1, _ => by
      have hblank : ∀ c ∈ '\n' :: List.replicate (depth - 1) '\t', c.toNat ≤ 32 :=
        List.forall_mem_cons.mpr ⟨by decide, toNat_tabs_le _⟩
      have hclose : skip (formatted fmt ('\n' :: List.replicate (depth - 1) '\t') ++ '}' :: rest) =
          '}' :: rest := by
        rw [skip_formatted fmt hblank, skip_cons (by decide)]
      rw [Value.text, emptyObjectText, List.cons_append, List.append_assoc, List.singleton_append,
        parseValue_object, hclose]
      rfl
  | .object (.cons string item next), h, depth, rest, _, fuel + 1, hfuel => by
      have hnext := Members.parse_texts hdt string item next h.1 h.2 (depth + 1) rest fuel
        (by
          simp only [Value.text, objectText, List.length_cons, List.length_append] at hfuel
          omega) depth
      have hnewline : ∀ s, parseMembers dt fuel (formatted fmt ['\n'] ++ s) =
          parseMembers dt fuel s := fun s => parseMembers_formatted (by decide) fuel s
      rw [← hnewline] at hnext
      have hskip : (skip (formatted fmt ['\n'] ++
          (objectEntries (depth + 1) fmt
            ((Members.cons string item next).texts dt (depth + 1) fmt) ++
            (formatted fmt (List.replicate depth '\t') ++ '}' :: rest)))).head? ≠ some '}' := by
        rw [skip_formatted fmt (by decide), Members.texts, objectEntries, List.append_assoc,
          skip_formatted fmt (toNat_tabs_le _), List.append_assoc, skip_stringText]
        exact fun h => absurd (Option.some.inj h) (by decide)
      have htext : (Value.object (.cons string item next)).text dt depth fmt ++ rest =
          '{' :: (formatted fmt ['\n'] ++ (objectEntries (depth + 1) fmt
            ((Members.cons string item next).texts dt (depth + 1) fmt) ++
              (formatted fmt (List.replicate depth '\t') ++ '}' :: rest))) := by
        simp [Value.text, objectText]
      rw [htext, parseValue_object, if_neg hskip, hnext]
      rfl
termination_by _ _ _ _ _ fuel => fuel

theorem Elements.parse_texts (hdt : dt.Exact) : ∀ (item : Value F) (next : Elements F),
    item.Whole dt → next.Whole dt → ∀ (depth : ℕ) (rest : List Char) (fuel : ℕ),
      2 * (arrayEntries fmt ((Elements.cons item next).texts dt depth fmt)).length + 2 ≤ fuel →
      parseElements dt fuel
        (arrayEntries fmt ((Elements.cons item next).texts dt depth fmt) ++ ']' :: rest) =
          .ok (.cons item next, ']' :: rest)
  | _, _, _, _, _, _, 0, hfuel => absurd hfuel (by omega)
  | item, .nil, hitem, _, depth, rest, fuel + 1, hfuel => by
      have hclose : skip (']' :: rest) = ']' :: rest := skip_cons (by decide) rest
      have hends : EndsNumber (']' :: rest) :=
        endsNumber_cons (by decide) (by decide) (by decide) (by decide) rest
      have hvalue := item.parse_text hdt hitem depth _ hends fuel (by
        simp only [Elements.texts, arrayEntries] at hfuel
        omega)
      rw [Elements.texts, Elements.texts, arrayEntries, parseElements_entry hdt hitem hvalue,
        hclose, if_neg]
      simp
  | item, .cons item' next, hitem, hnext, depth, rest, fuel + 1, hfuel => by
      simp only [Elements.texts, arrayEntries, List.length_append, List.length_cons] at hfuel
      have hnext' := Elements.parse_texts hdt item' next hnext.1 hnext.2 depth rest fuel
        (by
          rw [Elements.texts]
          omega)
      have hcomma : ∀ s, skip (',' :: s) = ',' :: s := fun s => skip_cons (by decide) s
      have hvalue := item.parse_text hdt hitem depth (',' :: (formatted fmt [' '] ++
          (arrayEntries fmt ((Elements.cons item' next).texts dt depth fmt) ++ ']' :: rest)))
        (endsNumber_cons (by decide) (by decide) (by decide) (by decide) _) fuel (by omega)
      have htext : arrayEntries fmt ((Elements.cons item (.cons item' next)).texts dt depth fmt) ++
          ']' :: rest = item.text dt depth fmt ++ ',' :: (formatted fmt [' '] ++
            (arrayEntries fmt ((Elements.cons item' next).texts dt depth fmt) ++ ']' :: rest)) := by
        simp [Elements.texts, arrayEntries]
      rw [htext, parseElements_entry hdt hitem hvalue, hcomma, List.head?_cons, if_pos rfl,
        List.tail_cons, parseElements_formatted (by decide), hnext']
      rfl
termination_by _ _ _ _ _ _ fuel => fuel

theorem Members.parse_texts (hdt : dt.Exact) : ∀ (string : Text) (item : Value F)
    (next : Members F), item.Whole dt → next.Whole dt →
    ∀ (depth : ℕ) (rest : List Char) (fuel : ℕ),
      2 * (objectEntries depth fmt
        ((Members.cons string item next).texts dt depth fmt)).length + 2 ≤ fuel →
      ∀ (k : ℕ), parseMembers dt fuel (objectEntries depth fmt
        ((Members.cons string item next).texts dt depth fmt) ++
          (formatted fmt (List.replicate k '\t') ++ '}' :: rest)) =
            .ok (.cons string item next, '}' :: rest)
  | _, _, _, _, _, _, _, 0, hfuel, _ => absurd hfuel (by omega)
  | string, item, .nil, hitem, _, depth, rest, fuel + 1, hfuel, k => by
      simp only [Members.texts, objectEntries, List.length_append, List.length_cons] at hfuel
      have hends : EndsNumber (formatted fmt ['\n'] ++
          (formatted fmt (List.replicate k '\t') ++ '}' :: rest)) :=
        endsNumber_formatted (by decide) (endsNumber_formatted (toNat_tabs_le k)
          (endsNumber_cons (by decide) (by decide) (by decide) (by decide) rest))
      have hvalue := item.parse_text hdt hitem depth _ hends fuel (by omega)
      have hclose : skip (formatted fmt ['\n'] ++
          (formatted fmt (List.replicate k '\t') ++ '}' :: rest)) = '}' :: rest := by
        rw [skip_formatted fmt (by decide), skip_formatted fmt (toNat_tabs_le k),
          skip_cons (by decide)]
      have hentry := parseMembers_entry hdt string hitem hvalue
      rw [hclose, if_neg (by simp)] at hentry
      simpa [Members.texts, objectEntries] using hentry
  | string, item, .cons string' item' next, hitem, hnext, depth, rest, fuel + 1, hfuel, k => by
      simp only [Members.texts, objectEntries, List.length_append, List.length_cons] at hfuel
      have hnext' := Members.parse_texts hdt string' item' next hnext.1 hnext.2 depth rest
        fuel (by
          simp only [Members.texts, objectEntries, List.length_append, List.length_cons]
          omega) k
      have hcomma : ∀ s, skip (',' :: s) = ',' :: s := fun s => skip_cons (by decide) s
      have hvalue := item.parse_text hdt hitem depth (',' :: (formatted fmt ['\n'] ++
          (objectEntries depth fmt ((Members.cons string' item' next).texts dt depth fmt) ++
            (formatted fmt (List.replicate k '\t') ++ '}' :: rest))))
        (endsNumber_cons (by decide) (by decide) (by decide) (by decide) _) fuel (by omega)
      have hnewline : ∀ s, parseMembers dt fuel (formatted fmt ['\n'] ++ s) =
          parseMembers dt fuel s := fun s => parseMembers_formatted (by decide) fuel s
      have hentry := parseMembers_entry hdt string hitem hvalue
      rw [hcomma, List.head?_cons, if_pos rfl, List.tail_cons, hnewline, hnext'] at hentry
      simpa [Members.texts, objectEntries, Except.map] using hentry
termination_by _ _ _ _ _ _ _ fuel => fuel

end

end Items

/-- The text of an item, as a character array holds it, is parsed to the item. -/
theorem parseWithOpts_text {dt : Double F} (hdt : dt.Exact) {item : Value F}
    (h : item.Whole dt) {fmt : Bool} {text : Text} (htext : text.chars = item.text dt 0 fmt) :
    parseWithOpts dt text true = .ok (item, []) := by
  have hends : EndsNumber [] := by simp [EndsNumber]
  have hvalue : parseValue dt (2 * (item.text dt 0 fmt).length + 1) (item.text dt 0 fmt ++ []) =
      .ok (item, []) := item.parse_text hdt h 0 [] hends _ le_rfl
  rw [← hdt.skip_text h, List.append_nil] at hvalue
  rw [parseWithOpts, htext, hvalue]
  rfl

/-- What is printed, formatted or not, stays inside what is allocated for it, and
it is parsed to the item up to the terminator. -/
theorem parse_printValue {dt : Double F} (hdt : dt.Exact) (hformats : dt.Formats) {item : Value F}
    (h : item.Whole dt) (fmt : Bool) :
    ∃ text : Text, (printValue dt item 0 fmt).val = some text.chars ∧
      (printValue dt item 0 fmt).Each Access.InBounds ∧
      parseWithOpts dt text true = .ok (item, []) := by
  obtain ⟨hval, hbounds⟩ := Value.writes hformats fmt item 0
  exact ⟨item.textOf hformats fmt, hval, hbounds, parseWithOpts_text hdt h rfl⟩

/-! ## A run on an item -/

theorem exact_intDouble : intDouble.Exact where
  add m n _ _ _ := by
    simp only [ofInt_intDouble]
    rfl
  sub m n _ _ _ := by
    simp only [ofInt_intDouble]
    rfl
  mul m n _ _ _ _ := by
    simp only [ofInt_intDouble]
    rfl
  abs n _ := by
    simp only [ofInt_intDouble]
    rfl
  floor n _ := rfl
  pow_zero := by decide
  le m n _ _ := by
    simp only [ofInt_intDouble]
    rfl
  zero_le_epsilon := by decide +kernel
  lt n hn := by
    have hbound : intDouble.ofRat (10 ^ 60) = 10 ^ 60 := by decide +kernel
    rw [ofInt_intDouble, hbound]
    unfold Small at hn
    exact decide_eq_true (by omega)
  toInt n hmin hmax := by
    rw [ofInt_intDouble]
    unfold intMin at hmin
    unfold intMax at hmax
    exact Int32.toInt_ofInt_of_le (by omega) (by omega)
  fixed n _ := by
    rw [ofInt_intDouble]
    exact List.append_nil _

/-- An object with an array, an empty object and texts that are escaped. -/
def nestedItem : Value ℤ :=
  .object (.cons (Text.of ['a', '"', '\x01'])
    (.array (.cons (.number (-12) (-12)) (.cons (.object .nil) (.cons (.bool true) .nil))))
    (.cons (Text.of []) (.string (Text.of ['\n', '/', '\\'])) .nil))

theorem parse_printValue_nestedItem :
    ∃ text : Text, (printValue intDouble nestedItem 0 true).val = some text.chars ∧
      (printValue intDouble nestedItem 0 true).Each Access.InBounds ∧
      parseWithOpts intDouble text true = .ok (nestedItem, []) := by
  have hwhole : nestedItem.Whole intDouble := by
    refine ⟨⟨⟨-12, ?_, ?_, ?_⟩, trivial, trivial, trivial⟩, trivial, trivial⟩ <;> decide
  exact parse_printValue exact_intDouble formats_intDouble hwhole true

end EceLib.Json
