import EceLib.Support.Memory
import Mathlib.Data.Nat.Digits.Defs
import Mathlib.Data.UInt

/-!
# 32-bit words in memory

Words are stored in the byte order of a little-endian host, or, where the
program converts with `htonl` before it stores and with `ntohl` after it loads,
in network order.  The module gives the four bytes of a word in both orders,
the word read back from four bytes, and what a reader finds in a record that is
laid out as one field after the other.  The last section is about the number
that any bytes stand for in one order or the other.
-/

namespace EceLib.Support

/-- The bytes of a word as a little-endian host stores it. -/
def le32Bytes (x : UInt32) : List UInt8 :=
  [UInt8.ofNat x.toNat, UInt8.ofNat (x.toNat / 2 ^ 8),
    UInt8.ofNat (x.toNat / 2 ^ 16), UInt8.ofNat (x.toNat / 2 ^ 24)]

/-- The bytes of a word in network order. -/
def be32Bytes (x : UInt32) : List UInt8 := (le32Bytes x).reverse

/-- The word with the given bytes, least significant first. -/
def wordOfBytes (b₀ b₁ b₂ b₃ : UInt8) : UInt32 :=
  UInt32.ofNat (b₀.toNat + 2 ^ 8 * b₁.toNat + 2 ^ 16 * b₂.toNat + 2 ^ 24 * b₃.toNat)

@[simp] theorem length_le32Bytes (x : UInt32) : (le32Bytes x).length = 4 := rfl

@[simp] theorem length_be32Bytes (x : UInt32) : (be32Bytes x).length = 4 := rfl

theorem toNat_wordOfBytes (b₀ b₁ b₂ b₃ : UInt8) :
    (wordOfBytes b₀ b₁ b₂ b₃).toNat =
      b₀.toNat + 2 ^ 8 * b₁.toNat + 2 ^ 16 * b₂.toNat + 2 ^ 24 * b₃.toNat := by
  have h₀ := b₀.toNat_lt
  have h₁ := b₁.toNat_lt
  have h₂ := b₂.toNat_lt
  have h₃ := b₃.toNat_lt
  rw [wordOfBytes, UInt32.toNat_ofNat']
  apply Nat.mod_eq_of_lt
  omega

/-- A word is put together again from its bytes. -/
theorem wordOfBytes_le32Bytes (x : UInt32) :
    wordOfBytes (UInt8.ofNat x.toNat) (UInt8.ofNat (x.toNat / 2 ^ 8))
      (UInt8.ofNat (x.toNat / 2 ^ 16)) (UInt8.ofNat (x.toNat / 2 ^ 24)) = x := by
  apply UInt32.toNat_inj.mp
  have hx := x.toNat_lt
  rw [toNat_wordOfBytes]
  simp only [UInt8.toNat_ofNat']
  omega

theorem wordOfBytes_eq_zero_iff {b₀ b₁ b₂ b₃ : UInt8} :
    wordOfBytes b₀ b₁ b₂ b₃ = 0 ↔ b₀ = 0 ∧ b₁ = 0 ∧ b₂ = 0 ∧ b₃ = 0 := by
  have hzero : ∀ b : UInt8, b = 0 ↔ b.toNat = 0 := fun b => by
    rw [← UInt8.toNat_inj]
    rfl
  rw [← UInt32.toNat_inj, toNat_wordOfBytes, hzero, hzero, hzero, hzero]
  change _ = 0 ↔ _
  omega

namespace Buf

/-- The word a little-endian host loads from offset `off`. -/
def le32 (b : Buf) (off : ℕ) : UInt32 :=
  wordOfBytes (b.mem off) (b.mem (off + 1)) (b.mem (off + 2)) (b.mem (off + 3))

/-- `ntohl` of the word at offset `off`. -/
def be32 (b : Buf) (off : ℕ) : UInt32 :=
  wordOfBytes (b.mem (off + 3)) (b.mem (off + 2)) (b.mem (off + 1)) (b.mem off)

theorem le32_eq_zero_iff {b : Buf} {off : ℕ} :
    b.le32 off = 0 ↔ b.bytes off 4 = List.replicate 4 0 := by
  rw [le32, wordOfBytes_eq_zero_iff]
  simp [bytes, List.range_succ]

theorem be32_drop (b : Buf) (n off : ℕ) : (b.drop n).be32 off = b.be32 (n + off) := rfl

theorem be32_congr {b c : Buf} {m n : ℕ}
    (h : ∀ i < 4, b.mem (m + i) = c.mem (n + i)) : b.be32 m = c.be32 n := by
  have h₀ := h 0 (by omega)
  have h₁ := h 1 (by omega)
  have h₂ := h 2 (by omega)
  have h₃ := h 3 (by omega)
  rw [be32, be32, h₁, h₂, h₃]
  exact congrArg _ h₀

theorem le32_congr {b c : Buf} {m n : ℕ}
    (h : ∀ i < 4, b.mem (m + i) = c.mem (n + i)) : b.le32 m = c.le32 n := by
  have h₀ := h 0 (by omega)
  have h₁ := h 1 (by omega)
  have h₂ := h 2 (by omega)
  have h₃ := h 3 (by omega)
  rw [le32, le32, h₁, h₂, h₃]
  exact congrArg (fun b => wordOfBytes b _ _ _) h₀

/-- A little-endian field at the front of a record. -/
theorem le32_le32Bytes (x : UInt32) (r : List UInt8) :
    (ofBytes (le32Bytes x ++ r)).le32 0 = x :=
  wordOfBytes_le32Bytes x

/-- A network-order field at the front of a record. -/
theorem be32_be32Bytes (x : UInt32) (r : List UInt8) :
    (ofBytes (be32Bytes x ++ r)).be32 0 = x :=
  wordOfBytes_le32Bytes x

/-- A field of the second part of a record. -/
theorem be32_append (l r : List UInt8) (i : ℕ) :
    (ofBytes (l ++ r)).be32 (l.length + i) = (ofBytes r).be32 i := by
  apply be32_congr
  intro j _
  rw [Nat.add_assoc, ofBytes_append_mem]

/-- The fields of a record of consecutive network-order words. -/
theorem be32_flatMap {ws : List UInt32} {i : ℕ} {w : UInt32} (h : ws[i]? = some w)
    (r : List UInt8) : (ofBytes (ws.flatMap be32Bytes ++ r)).be32 (4 * i) = w := by
  induction ws generalizing i with
  | nil => simp at h
  | cons v ws ih =>
      rw [List.flatMap_cons, List.append_assoc]
      cases i with
      | zero =>
          obtain rfl : v = w := by simpa using h
          exact be32_be32Bytes v _
      | succ i =>
          have hi : 4 * (i + 1) = (be32Bytes v).length + 4 * i := by
            simp only [length_be32Bytes]
            omega
          rw [hi, be32_append]
          exact ih (by simpa using h)

/-- A record of words only. -/
theorem be32_words {ws : List UInt32} {i : ℕ} {w : UInt32} (h : ws[i]? = some w) :
    (ofBytes (ws.flatMap be32Bytes)).be32 (4 * i) = w := by
  have hword := be32_flatMap h []
  rwa [List.append_nil] at hword

/-- A record of an array field and words behind it. -/
theorem be32_append_flatMap {ws : List UInt32} {i : ℕ} {w : UInt32} (h : ws[i]? = some w)
    (l : List UInt8) : (ofBytes (l ++ ws.flatMap be32Bytes)).be32 (l.length + 4 * i) = w := by
  rw [be32_append, be32_words h]

end Buf

/-! ## Numbers in either byte order -/

inductive ByteOrder where
  | big
  | little
deriving DecidableEq

namespace ByteOrder

/-- The number some bytes stand for. -/
def value : ByteOrder → List UInt8 → ℕ
  | big, data => Nat.ofDigits 256 (data.reverse.map UInt8.toNat)
  | little, data => Nat.ofDigits 256 (data.map UInt8.toNat)

/-- As many bytes stand for one number only if they are the same. -/
theorem value_little_inj {data data' : List UInt8} (hlen : data.length = data'.length)
    (h : little.value data = little.value data') : data = data' := by
  have hlt : ∀ (l : List UInt8), ∀ n ∈ l.map UInt8.toNat, n < 256 := by
    intro l n hn
    obtain ⟨b, _, rfl⟩ := List.mem_map.mp hn
    exact b.toNat_lt
  have hdigits := Nat.ofDigits_inj_of_len_eq (by decide) (by simpa using hlen) (hlt data)
    (hlt data') h
  exact List.map_injective_iff.mpr (fun _ _ => UInt8.toNat_inj.mp) hdigits

theorem value_big_cons (b : UInt8) (data : List UInt8) :
    big.value (b :: data) = 256 ^ data.length * b.toNat + big.value data := by
  simp only [value, List.reverse_cons, List.map_append, List.map_cons, List.map_nil,
    Nat.ofDigits_append, Nat.ofDigits_singleton, List.length_map, List.length_reverse]
  omega

theorem value_big_lt (data : List UInt8) : big.value data < 256 ^ data.length := by
  have hbyte : ∀ n ∈ data.reverse.map UInt8.toNat, n < 256 := by
    intro n hn
    obtain ⟨b, _, rfl⟩ := List.mem_map.mp hn
    exact b.toNat_lt
  have hlt := Nat.ofDigits_lt_base_pow_length (by decide) hbyte
  rwa [List.length_map, List.length_reverse] at hlt

theorem value_big_inj {data data' : List UInt8} (hlen : data.length = data'.length)
    (h : big.value data = big.value data') : data = data' := by
  have hrev : data.reverse = data'.reverse :=
    value_little_inj (by rw [List.length_reverse, List.length_reverse, hlen]) h
  exact List.reverse_injective hrev

/-- Reading in network order is right for the order of the data, or makes no
difference. -/
theorem value_big_eq_iff (order : ByteOrder) (data : List UInt8) :
    big.value data = order.value data ↔ order = big ∨ data.reverse = data := by
  cases order with
  | big => simp
  | little =>
      have hrev : big.value data = little.value data.reverse := rfl
      rw [hrev]
      constructor
      · exact fun h => Or.inr (value_little_inj (List.length_reverse) h)
      · rintro (h | h)
        · cases h
        · rw [h]

end ByteOrder

end EceLib.Support
