import EceLib.Support.Words
import Mathlib.Data.Nat.Digits.Lemmas

/-!
# Hexadecimal texts

The digits of a number and of bytes in base 16, most significant first, with
the number that a row of digits stands for.  The main result tells when the
digits of one number are those of another with some bytes behind them.
-/

namespace EceLib.Support

/-- The digits of a byte. -/
def nibbles (b : UInt8) : List ℕ := [b.toNat / 16, b.toNat % 16]

/-- The digits of a number, at least `width` of them. -/
def hexDigits (width n : ℕ) : List ℕ := (Nat.digits 16 n).reverse.leftpad width 0

/-- The number of some digits. -/
def hexNumber (l : List ℕ) : ℕ := Nat.ofDigits 16 l.reverse

theorem hexNumber_append (l r : List ℕ) :
    hexNumber (l ++ r) = hexNumber l * 16 ^ r.length + hexNumber r := by
  rw [hexNumber, List.reverse_append, Nat.ofDigits_append, List.length_reverse, hexNumber,
    hexNumber]
  ring

@[simp] theorem hexNumber_hexDigits (width n : ℕ) : hexNumber (hexDigits width n) = n := by
  rw [hexNumber, hexDigits, List.leftpad, List.reverse_append, List.reverse_reverse,
    List.reverse_replicate, Nat.ofDigits_append_replicate_zero, Nat.ofDigits_digits]

theorem length_hexDigits (width n : ℕ) :
    (hexDigits width n).length = max width (Nat.digits 16 n).length := by
  rw [hexDigits, List.length_leftpad, List.length_reverse]

theorem hexDigits_lt {width n d : ℕ} (hd : d ∈ hexDigits width n) : d < 16 := by
  rcases List.mem_append.mp hd with hzero | hdigit
  · rw [(List.mem_replicate.mp hzero).2]
    decide
  · exact Nat.digits_lt_base (by decide) (List.mem_reverse.mp hdigit)

theorem length_flatMap_nibbles (bytes : List UInt8) :
    (bytes.flatMap nibbles).length = 2 * bytes.length := by
  induction bytes with
  | nil => rfl
  | cons b bytes ih =>
      rw [List.flatMap_cons, List.length_append, ih]
      simp only [nibbles, List.length_cons, List.length_nil]
      omega

theorem nibbles_lt {bytes : List UInt8} {d : ℕ} (hd : d ∈ bytes.flatMap nibbles) : d < 16 := by
  obtain ⟨b, _, hb⟩ := List.mem_flatMap.mp hd
  have hlt := b.toNat_lt
  simp only [nibbles, List.mem_cons, List.not_mem_nil, or_false] at hb
  omega

/-- The digits of bytes stand for their number in network order. -/
theorem hexNumber_flatMap_nibbles (bytes : List UInt8) :
    hexNumber (bytes.flatMap nibbles) = ByteOrder.big.value bytes := by
  induction bytes with
  | nil => rfl
  | cons b bytes ih =>
      have hbyte : hexNumber (nibbles b) = b.toNat := by
        simp only [hexNumber, nibbles, List.reverse_cons, List.reverse_nil, List.nil_append,
          List.cons_append, Nat.ofDigits_cons, Nat.ofDigits_nil]
        omega
      have hpow : 16 ^ (2 * bytes.length) = 256 ^ bytes.length := by
        rw [Nat.pow_mul]
      rw [List.flatMap_cons, hexNumber_append, hbyte, ih, length_flatMap_nibbles, hpow,
        ByteOrder.value_big_cons]
      ring

theorem flatMap_nibbles_inj {bytes bytes' : List UInt8}
    (h : bytes.flatMap nibbles = bytes'.flatMap nibbles) : bytes = bytes' := by
  have hlen := congrArg List.length h
  rw [length_flatMap_nibbles, length_flatMap_nibbles] at hlen
  apply ByteOrder.value_big_inj (by omega)
  rw [← hexNumber_flatMap_nibbles, h, hexNumber_flatMap_nibbles]

/-- Where some digits stand in front of those of bytes, they are those of the
first bytes and the rest. -/
theorem append_flatMap_nibbles {ds : List ℕ} {bytes rest : List UInt8}
    (h : bytes.flatMap nibbles = ds ++ rest.flatMap nibbles) :
    ∃ front, ds = front.flatMap nibbles ∧ bytes = front ++ rest := by
  have hlen := congrArg List.length h
  rw [List.length_append, length_flatMap_nibbles, length_flatMap_nibbles] at hlen
  have hsplit : (bytes.take (bytes.length - rest.length)).flatMap nibbles ++
      (bytes.drop (bytes.length - rest.length)).flatMap nibbles =
        ds ++ rest.flatMap nibbles := by
    rw [← List.flatMap_append, List.take_append_drop, h]
  have hfront : ((bytes.take (bytes.length - rest.length)).flatMap nibbles).length =
      ds.length := by
    rw [length_flatMap_nibbles, List.length_take]
    omega
  obtain ⟨hds, hrest⟩ := List.append_inj hsplit hfront
  have hbytes := List.take_append_drop (bytes.length - rest.length) bytes
  rw [flatMap_nibbles_inj hrest] at hbytes
  exact ⟨_, hds.symm, hbytes.symm⟩

theorem hexDigits_of_length_le {width n : ℕ} (h : width ≤ (Nat.digits 16 n).length) :
    hexDigits width n = (Nat.digits 16 n).reverse := by
  rw [hexDigits, List.leftpad, List.length_reverse, Nat.sub_eq_zero_of_le h]
  rfl

/-- Digits without zeros in front are those of their number. -/
theorem digits_append_flatMap_nibbles {n : ℕ} (hn : n ≠ 0) (bytes : List UInt8) :
    Nat.digits 16 (n * 256 ^ bytes.length + ByteOrder.big.value bytes) =
      (bytes.flatMap nibbles).reverse ++ Nat.digits 16 n := by
  have hnumber : Nat.ofDigits 16 ((bytes.flatMap nibbles).reverse ++ Nat.digits 16 n) =
      n * 256 ^ bytes.length + ByteOrder.big.value bytes := by
    rw [Nat.ofDigits_append, Nat.ofDigits_digits, List.length_reverse, length_flatMap_nibbles,
      Nat.pow_mul, ← hexNumber_flatMap_nibbles, hexNumber]
    ring
  rw [← hnumber]
  apply Nat.digits_ofDigits 16 (by decide)
  · intro d hd
    rcases List.mem_append.mp hd with hbyte | hdigit
    · exact nibbles_lt (List.mem_reverse.mp hbyte)
    · exact Nat.digits_lt_base (by decide) hdigit
  · intro _
    have hne : Nat.digits 16 n ≠ [] := Nat.digits_ne_nil_iff_ne_zero.mpr hn
    rw [List.getLast_append_of_ne_nil _ hne]
    exact Nat.getLast_digit_ne_zero 16 hn

/-- The digits of a number end in those of bytes exactly if the digits in front
are those of another number, written in full width. -/
theorem hexDigits_eq_append_iff {width n n' : ℕ} {bytes : List UInt8} (hbytes : bytes ≠ []) :
    hexDigits (width + 1) n = hexDigits (width + 1) n' ++ bytes.flatMap nibbles ↔
      16 ^ width ≤ n' ∧
        n = n' * 256 ^ bytes.length + ByteOrder.big.value bytes := by
  have hpow : 16 ^ (2 * bytes.length) = 256 ^ bytes.length := Nat.pow_mul 16 2 bytes.length
  have hpos : 0 < bytes.length := List.length_pos_iff.mpr hbytes
  constructor
  · intro h
    have hlen := congrArg List.length h
    rw [List.length_append, length_flatMap_nibbles] at hlen
    have hvalue : n = n' * 256 ^ bytes.length + ByteOrder.big.value bytes := by
      rw [← hexNumber_hexDigits (width + 1) n, h, hexNumber_append, hexNumber_hexDigits,
        hexNumber_flatMap_nibbles, length_flatMap_nibbles, hpow]
    refine ⟨?_, hvalue⟩
    -- `n` has all these digits without padding
    rw [length_hexDigits, length_hexDigits] at hlen
    have hdigits : width + 1 + 2 * bytes.length ≤ (Nat.digits 16 n).length := by omega
    have hn : n ≠ 0 := by
      intro hzero
      rw [hzero, Nat.digits_zero, List.length_nil] at hdigits
      omega
    have hlower : 16 ^ (width + 1) * 256 ^ bytes.length ≤ 16 * n := calc
      16 ^ (width + 1) * 256 ^ bytes.length = 16 ^ (width + 1 + 2 * bytes.length) := by
        rw [← hpow, ← Nat.pow_add]
      _ ≤ 16 ^ (Nat.digits 16 n).length := Nat.pow_le_pow_right (by decide) hdigits
      _ ≤ 16 * n := Nat.base_pow_length_digits_le 16 n (by decide) hn
    have hupper : n < (n' + 1) * 256 ^ bytes.length := by
      have hlt := ByteOrder.value_big_lt bytes
      rw [Nat.succ_mul]
      omega
    have hbound : 16 ^ width * 256 ^ bytes.length < (n' + 1) * 256 ^ bytes.length := by
      rw [Nat.pow_succ', Nat.mul_assoc] at hlower
      omega
    exact Nat.lt_succ_iff.mp (Nat.lt_of_mul_lt_mul_right hbound)
  · rintro ⟨hn', rfl⟩
    have hfull : width + 1 ≤ (Nat.digits 16 n').length := by
      have hlt : 16 ^ width < 16 ^ (Nat.digits 16 n').length :=
        Nat.lt_of_le_of_lt hn' (Nat.lt_base_pow_length_digits (by decide))
      have hexp := (Nat.pow_lt_pow_iff_right (by decide)).mp hlt
      omega
    have hn0 : n' ≠ 0 := by
      have hpos' : 0 < 16 ^ width := Nat.pow_pos (by decide)
      omega
    have happend := digits_append_flatMap_nibbles hn0 bytes
    rw [hexDigits_of_length_le hfull, hexDigits_of_length_le, happend, List.reverse_append,
      List.reverse_reverse]
    rw [happend, List.length_append]
    omega

/-! ## The characters of the digits -/

theorem map_digitChar_inj {l r : List ℕ} (hl : ∀ d ∈ l, d < 16) (hr : ∀ d ∈ r, d < 16)
    (h : l.map Nat.digitChar = r.map Nat.digitChar) : l = r := by
  have hdigit : ∀ a < 16, ∀ b < 16, Nat.digitChar a = Nat.digitChar b → a = b := by decide
  induction l generalizing r with
  | nil => exact (List.map_eq_nil_iff.mp h.symm).symm
  | cons d l ih =>
      cases r with
      | nil => cases h
      | cons e r =>
          obtain ⟨hhead, htail⟩ := List.cons.inj h
          rw [hdigit d (hl d List.mem_cons_self) e (hr e List.mem_cons_self) hhead,
            ih (fun a ha => hl a (List.mem_cons_of_mem _ ha))
              (fun a ha => hr a (List.mem_cons_of_mem _ ha)) htail]

theorem toDigits_eq {n : ℕ} (hn : n ≠ 0) :
    Nat.toDigits 16 n = (Nat.digits 16 n).reverse.map Nat.digitChar := by
  induction n using Nat.strongRecOn with
  | ind n ih =>
      by_cases hlt : n < 16
      · rw [Nat.toDigits_of_lt_base hlt, Nat.digits_of_lt 16 n hn hlt]
        rfl
      · have hquot : n / 16 ≠ 0 := by omega
        have hdigits : Nat.digits 16 n = n % 16 :: Nat.digits 16 (n / 16) :=
          Nat.digits_def' (by decide) (Nat.pos_of_ne_zero hn)
        rw [Nat.toDigits_of_base_le (by decide) (by omega), ih (n / 16) (by omega) hquot, hdigits,
          List.reverse_cons, List.map_append]
        rfl

/-- What `%x` prints with a minimal width. -/
theorem leftpad_toDigits (width n : ℕ) :
    (Nat.toDigits 16 n).leftpad (width + 1) '0' =
      (hexDigits (width + 1) n).map Nat.digitChar := by
  by_cases hn : n = 0
  · subst hn
    simp [hexDigits, List.leftpad, List.replicate_succ']
  · rw [toDigits_eq hn, hexDigits, List.leftpad, List.leftpad, List.map_append,
      List.map_replicate, List.length_map]
    rfl

end EceLib.Support
