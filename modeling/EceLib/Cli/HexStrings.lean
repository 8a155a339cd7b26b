import EceLib.Cli.ChToHex
import EceLib.Support.HexText
import Mathlib.Data.List.TakeWhile

/-!
# The strings `ch_to_hex` accepts

A string denotes bytes if it gives each of them by two digits, the high one
first and either in upper or in lower case.  `ch_to_hex` accepts just the
strings that denote some bytes, and returns these, unless a string goes on with
digits until the index has no next value.
-/

namespace EceLib

open Support

/-! ## Digits -/

/-- What a character stands for as a digit. -/
def digitValue (c : UInt8) : Option ℕ :=
  if 0x30 ≤ c ∧ c ≤ 0x39 then some (c.toNat - 0x30)
  else if 0x41 ≤ c ∧ c ≤ 0x46 then some (c.toNat - 0x41 + 10)
  else if 0x61 ≤ c ∧ c ≤ 0x66 then some (c.toNat - 0x61 + 10)
  else none

/-- A string and the bytes it gives digit by digit. -/
inductive Denotes : List UInt8 → List UInt8 → Prop where
  | nil : Denotes [] []
  | cons {a b byte : UInt8} {s bytes : List UInt8} (high : digitValue a = some (byte.toNat / 16))
      (low : digitValue b = some (byte.toNat % 16)) (rest : Denotes s bytes) :
      Denotes (a :: b :: s) (byte :: bytes)

example : Denotes [0x34, 0x61, 0x46, 0x30] [0x4A, 0xF0] :=
  .cons (by decide) (by decide) (.cons (by decide) (by decide) .nil)

theorem Denotes.length {s bytes : List UInt8} (h : Denotes s bytes) :
    s.length = 2 * bytes.length := by
  induction h with
  | nil => rfl
  | cons _ _ _ ih =>
      simp only [List.length_cons]
      omega

/-- The code takes the same characters for digits, with the same values. -/
theorem digitValue_eq (c : UInt8) :
    digitValue c = if isHex c then some (hexVal c).toNat else none := by
  have hall : ∀ i : Fin 256, digitValue (UInt8.ofFin i) =
      if isHex (UInt8.ofFin i) then some (hexVal (UInt8.ofFin i)).toNat else none := by
    decide +kernel
  exact hall c.toFin

theorem isSome_digitValue_iff (c : UInt8) : (digitValue c).isSome ↔ isHex c := by
  rw [digitValue_eq]
  split
  · simp [*]
  · simp [*]

theorem hexVal_lt {c : UInt8} (hc : isHex c) : (hexVal c).toNat < 16 := by
  have hall : ∀ i : Fin 256, isHex (UInt8.ofFin i) → (hexVal (UInt8.ofFin i)).toNat < 16 := by
    decide +kernel
  exact hall c.toFin hc

/-- Two digits make up a byte. -/
theorem toNat_pair {a b : UInt8} (ha : a.toNat < 16) (hb : b.toNat < 16) :
    ((a <<< 4) ||| b).toNat = 16 * a.toNat + b.toNat := by
  have hall : ∀ i j : Fin 16, ((UInt8.ofNat i <<< 4) ||| UInt8.ofNat j).toNat = 16 * i + j := by
    decide +kernel
  have hpair := hall ⟨a.toNat, ha⟩ ⟨b.toNat, hb⟩
  rwa [UInt8.ofNat_toNat, UInt8.ofNat_toNat] at hpair

theorem digitValue_eq_some_iff {c : UInt8} {d : ℕ} :
    digitValue c = some d ↔ isHex c ∧ (hexVal c).toNat = d := by
  rw [digitValue_eq, Option.ite_none_right_eq_some, Option.some.injEq]

/-- The strings of pairs are those that denote bytes. -/
theorem denotes_iff {s bytes : List UInt8} :
    Denotes s bytes ↔ HexPairs s ∧ bytes = pairBytes s := by
  constructor
  · intro h
    induction h with
    | nil => exact ⟨by simp [HexPairs], rfl⟩
    | cons high low _ ih =>
        obtain ⟨ha, hhigh⟩ := digitValue_eq_some_iff.mp high
        obtain ⟨hb, hlow⟩ := digitValue_eq_some_iff.mp low
        refine ⟨hexPairs_cons_cons.mpr ⟨ha, hb, ih.1⟩, ?_⟩
        rw [pairBytes, ← ih.2]
        congr 1
        apply UInt8.toNat_inj.mp
        rw [toNat_pair (hexVal_lt ha) (hexVal_lt hb), hhigh, hlow]
        omega
  · rintro ⟨hpairs, rfl⟩
    induction s using pairBytes.induct with
    | case1 a b s ih =>
        obtain ⟨ha, hb, hrest⟩ := hexPairs_cons_cons.mp hpairs
        have hpair := toNat_pair (hexVal_lt ha) (hexVal_lt hb)
        have hlow := hexVal_lt hb
        refine Denotes.cons (digitValue_eq_some_iff.mpr ⟨ha, ?_⟩)
          (digitValue_eq_some_iff.mpr ⟨hb, ?_⟩) (ih hrest)
        · rw [hpair]
          omega
        · rw [hpair]
          omega
    | case2 s hshort =>
        cases s with
        | nil => exact Denotes.nil
        | cons a s =>
            cases s with
            | nil => exact absurd hpairs.2 (by simp)
            | cons b s => exact absurd rfl (hshort a b s)

/-! ## What the conversion returns -/

theorem hexPrefix_of_hexPairs {s : List UInt8} (h : HexPairs s) : hexPrefix s = s.length := by
  rw [hexPrefix, List.takeWhile_eq_self_iff.mpr h.1]

/-- A string that denotes bytes is converted to these. -/
theorem val_chToHex_of_denotes (dst : Destination) {size : ℕ} {s : CStr} {bytes : List UInt8}
    (h : Denotes s.bytes bytes) (hsize : bytes.length ≤ size) (hint : hexPrefix s.bytes ≤ intMax) :
    (chToHex dst size s).val = some (bytes.length, bytes) := by
  obtain ⟨hpairs, hbytes⟩ := denotes_iff.mp h
  have hlen := h.length
  have hprefix := hexPrefix_of_hexPairs hpairs
  obtain ⟨out, hval, hout⟩ := @val_chToHexLoop dst size s.bytes.length s.bytes []
    (by rw [bytesWritten, List.length_nil]; omega) (by simpa using hint)
  have hhalf : s.bytes.length / 2 = bytes.length := by omega
  rw [if_pos hpairs, hout hpairs, List.length_nil, Nat.zero_add, List.nil_append, ← hbytes,
    hhalf] at hval
  exact hval

/-- An access to the argument stays in front of the end of its terminator. -/
def InArgument (a : Access CliBuffer) : Prop := a.buf = .arg → a.InBounds

/-- A string is accepted with a positive length exactly if it has twice as many
digits and nothing else; the bytes are then those it denotes.  No character
behind the terminator is read. -/
structure Converts (dst : Destination) (size : ℕ) (s : CStr) : Prop where
  result : ∃ n bits, (chToHex dst size s).val = some (n, bits) ∧
    (∀ k, 0 < k →
      (n = k ↔ s.bytes.length = 2 * k ∧ ∀ c ∈ s.bytes, (digitValue c).isSome)) ∧
    ((∀ k, 0 < k → ¬ (s.bytes.length = 2 * k ∧ ∀ c ∈ s.bytes, (digitValue c).isSome)) → n = 0) ∧
    (0 < n → bits.length = n ∧ Denotes s.bytes bits) ∧
    ∀ bytes, bytes ≠ [] → Denotes s.bytes bytes → n = bytes.length ∧ bits = bytes
  reads : (chToHex dst size s).Each InArgument

theorem each_chToHexLoop_inArgument (dst : Destination) (size : ℕ) {len : ℕ} (s : List UInt8)
    {bits : List UInt8} (hlen : 2 * bits.length + s.length = len) :
    (chToHexLoop dst size len s bits).Each InArgument := by
  have hdst : ∀ off, InArgument ⟨.dst dst, off, 1, size⟩ := fun _ h => absurd h (by simp)
  have harg : ∀ off, off ≤ len → InArgument ⟨.arg, off, 1, len + 1⟩ :=
    fun _ h _ => Nat.succ_le_succ h
  induction s, bits using chToHexLoop.induct with
  | case1 bits =>
      rw [chToHexLoop, Traced.each_touch_bind]
      exact ⟨harg _ (by omega), Traced.each_pure _⟩
  | case2 a bits =>
      rw [List.length_singleton] at hlen
      rw [chToHexLoop, Traced.each_touch_bind]
      refine ⟨harg _ (by omega), ?_⟩
      split
      · rw [Traced.each_require_bind]
        refine ⟨hdst _, fun _ => Traced.each_touch_bind.mpr ⟨harg _ (by omega), ?_⟩⟩
        exact Traced.each_pure _
      · exact Traced.each_pure _
  | case3 a b s bits ih =>
      rw [List.length_cons, List.length_cons] at hlen
      rw [chToHexLoop, Traced.each_touch_bind]
      refine ⟨harg _ (by omega), ?_⟩
      split
      · rw [Traced.each_require_bind]
        refine ⟨hdst _, fun _ => Traced.each_touch_bind.mpr ⟨harg _ (by omega), ?_⟩⟩
        split
        · split
          · apply ih
            rw [List.length_append, List.length_singleton]
            omega
          · exact Traced.each_stop
        · exact Traced.each_pure _
      · exact Traced.each_pure _

/-- A string of pairs has twice as many digits as bytes. -/
theorem hexPairs_iff (s : List UInt8) :
    HexPairs s ↔ s.length = 2 * (s.length / 2) ∧ ∀ c ∈ s, (digitValue c).isSome := by
  simp only [HexPairs, isSome_digitValue_iff]
  rw [and_comm]
  refine and_congr_left fun _ => ?_
  omega

/-- In a destination with room for all it writes, `ch_to_hex` converts every
string that does not begin with more digits than an `int` counts. -/
theorem converts_of_hexPrefix_le (dst : Destination) {size : ℕ} {s : CStr}
    (hfits : bytesWritten s.bytes ≤ size) (hint : hexPrefix s.bytes ≤ intMax) :
    Converts dst size s := by
  have hreads : (chToHex dst size s).Each InArgument :=
    each_chToHexLoop_inArgument dst size s.bytes (by simp)
  by_cases hpairs : HexPairs s.bytes
  · obtain ⟨heven, hdigits⟩ := (hexPairs_iff s.bytes).mp hpairs
    have hdenotes : Denotes s.bytes (pairBytes s.bytes) := denotes_iff.mpr ⟨hpairs, rfl⟩
    have hlen := hdenotes.length
    have hroom : (pairBytes s.bytes).length ≤ size := by
      rw [bytesWritten, hexPrefix_of_hexPairs hpairs] at hfits
      omega
    refine ⟨⟨_, _, val_chToHex_of_denotes dst hdenotes hroom hint, ?_, ?_,
      fun _ => ⟨rfl, hdenotes⟩, ?_⟩, hreads⟩
    · intro k _
      constructor
      · rintro rfl
        exact ⟨hlen, hdigits⟩
      · rintro ⟨hk, -⟩
        omega
    · intro hother
      by_contra hne
      exact hother _ (Nat.pos_of_ne_zero hne) ⟨hlen, hdigits⟩
    · intro bytes _ h
      rw [(denotes_iff.mp h).2]
      exact ⟨rfl, rfl⟩
  · obtain ⟨out, hval, -⟩ := @val_chToHexLoop dst size s.bytes.length s.bytes []
      (by simpa using hfits) (by simpa using hint)
    rw [if_neg hpairs] at hval
    refine ⟨⟨0, out, hval, ?_, fun _ => rfl, fun h => absurd h (by decide), ?_⟩, hreads⟩
    · intro k hk
      refine iff_of_false (by omega) ?_
      rintro ⟨heven, hdigits⟩
      exact hpairs ((hexPairs_iff s.bytes).mpr ⟨by omega, hdigits⟩)
    · intro bytes _ h
      exact absurd (denotes_iff.mp h).1 hpairs

/-- A short string. -/
def lowerUpper : CStr where
  bytes := [0x34, 0x61, 0x46, 0x30]
  ne_zero := by simp

theorem converts_lowerUpper :
    bytesWritten lowerUpper.bytes ≤ 2 ∧ hexPrefix lowerUpper.bytes ≤ intMax ∧
      Converts .addr 2 lowerUpper := by
  have hfits : bytesWritten lowerUpper.bytes ≤ 2 := by decide
  have hdigits : hexPrefix lowerUpper.bytes ≤ 4 := by decide
  have hint : hexPrefix lowerUpper.bytes ≤ intMax := by
    rw [intMax]
    omega
  exact ⟨hfits, hint, converts_of_hexPrefix_le .addr hfits hint⟩

/-! ## Strings that are too long for the index -/

/-- Behind so many digits the index has no next value, whatever follows them. -/
theorem val_chToHexLoop_of_long (dst : Destination) (size len : ℕ) (s : List UInt8)
    {bits : List UInt8} (hbits : 2 * bits.length ≤ intMax)
    (hlong : intMax < 2 * bits.length + hexPrefix s) :
    (chToHexLoop dst size len s bits).val = none := by
  have hmax : intMax = 2147483647 := rfl
  induction s, bits using chToHexLoop.induct with
  | case1 bits => exact absurd hlong (Nat.not_lt.mpr hbits)
  | case2 a bits =>
      have hone : hexPrefix [a] ≤ 1 := (List.takeWhile_sublist _).length_le
      omega
  | case3 a b s bits ih =>
      rw [chToHexLoop]
      by_cases ha : isHex a
      · by_cases hb : isHex b
        · rw [hexPrefix_of_pair ha hb] at hlong
          have hlen : (bits ++ [hexVal a <<< 4 ||| hexVal b]).length = bits.length + 1 := by simp
          have hrest : (if 2 * bits.length + 2 ≤ intMax then
              chToHexLoop dst size len s (bits ++ [hexVal a <<< 4 ||| hexVal b])
            else Traced.stop).val = none := by
            split
            · exact ih (by omega) (by omega)
            · rfl
          simp only [ha, hb, if_true, Traced.val_bind, Traced.val_touch, Option.bind_some, hrest]
          cases (Traced.require _).val with
          | none => rfl
          | some _ => rfl
        · rw [hexPrefix_cons, if_pos ha, hexPrefix_cons, if_neg hb] at hlong
          omega
      · rw [hexPrefix_cons, if_neg ha] at hlong
        omega

/-- As many digits as an `int` cannot count. -/
def longDigits : CStr where
  bytes := List.replicate (intMax + 1) 0x31
  ne_zero := by
    intro c hc
    rw [(List.mem_replicate.mp hc).2]
    decide

theorem converts_fails_of_long_string :
    ¬ ∀ (dst : Destination) (size : ℕ) (s : CStr), bytesWritten s.bytes ≤ size →
      Converts dst size s := by
  intro h
  obtain ⟨n, bits, hval, -⟩ := (h .appFilePkt _ longDigits (Nat.le_refl _)).result
  have hdigits : hexPrefix longDigits.bytes = intMax + 1 := by
    rw [hexPrefix, longDigits, List.takeWhile_replicate, if_pos (by decide),
      List.length_replicate]
  have hnil : 2 * ([] : List UInt8).length ≤ intMax := Nat.zero_le intMax
  have hnone := val_chToHexLoop_of_long .appFilePkt (bytesWritten longDigits.bytes)
    longDigits.bytes.length longDigits.bytes hnil (by rw [hdigits, List.length_nil]; omega)
  rw [chToHex, hnone] at hval
  cases hval

end EceLib
