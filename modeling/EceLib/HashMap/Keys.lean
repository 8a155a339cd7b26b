import EceLib.HashMap.Table
import EceLib.Md5

/-!
# The keys of the program's maps

`inc/hash_map.h` comes with two comparators and two hash functions: one pair
for `unsigned int` keys, used for topics and format keys, and one for strings,
used for device OIDs.  `str_cmp` compares only as many characters as its first
argument has; on strings of one length, such as OIDs, which all have 32, it is
still equality.
-/

namespace EceLib

/-! ## Topics and format keys -/

def intCmp (l r : UInt32) : Int := (l - r).toInt32.toInt

def intHashFunc (key : UInt32) (capacity : ℕ) : ℕ :=
  let a : UInt32 := (key ^^^ (61 : UInt32)) ^^^ (key >>> 16)
  let a := a + (a <<< 3)
  let a := a ^^^ (a >>> 4)
  let a := a * 0x27d4eb2d
  let a := a ^^^ (a >>> 15)
  a.toNat % capacity

theorem intCmp_eq_zero (l r : UInt32) : intCmp l r = 0 ↔ l = r := by
  have hzero : intCmp l r = 0 ↔ l - r = 0 := by
    constructor
    · intro h
      have hInt : (l - r).toInt32 = 0 := Int32.toInt_inj.mp h
      exact congrArg Int32.toUInt32 hInt
    · intro h
      rw [intCmp, h]
      rfl
  rw [hzero]
  constructor
  · intro h
    have hadd := congrArg (· + r) h
    simpa using hadd
  · rintro rfl
    exact UInt32.sub_self l

instance : HashKey UInt32 where
  comparator := intCmp
  hashFunc := intHashFunc
  comparator_eq_zero := intCmp_eq_zero
  hashFunc_lt := fun _ _ h => Nat.mod_lt _ h

/-! ## OIDs -/

/-- The 32 characters in front of the terminator of a device's `oid`. -/
structure Oid where
  chars : List Char
  length_chars : chars.length = 32
deriving DecidableEq

/-- `strncmp` on the characters before the terminators. -/
def strncmp : ℕ → List Char → List Char → Int
  | 0, _, _ => 0
  | _ + 1, [], [] => 0
  | _ + 1, a :: _, [] => a.toNat
  | _ + 1, [], b :: _ => -b.toNat
  | n + 1, a :: as, b :: bs => if a = b then strncmp n as bs else a.toNat - b.toNat

def strCmp (l r : Oid) : Int := strncmp l.chars.length l.chars r.chars

/-- One turn of the loop of `str_hash_func`. -/
def strHashStep (h : UInt32) (c : Char) : UInt32 :=
  let h : UInt32 := (h <<< 4) + UInt32.ofNat c.toNat
  let x : UInt32 := h &&& (0xF0000000 : UInt32)
  if x ≠ 0 then (h ^^^ (x >>> 24)) &&& ~~~x else h

def strHashFunc (key : Oid) (capacity : ℕ) : ℕ :=
  (key.chars.foldl strHashStep 0 &&& (0x7FFFFFFF : UInt32)).toNat % capacity

/-- On strings of one length the prefix comparison is equality. -/
theorem strncmp_eq_zero {l r : List Char} (hlen : l.length = r.length) :
    strncmp l.length l r = 0 ↔ l = r := by
  induction l generalizing r with
  | nil => simpa [strncmp] using (List.length_eq_zero_iff.mp hlen.symm).symm
  | cons a as ih =>
      cases r with
      | nil => simp at hlen
      | cons b bs =>
          rw [List.length_cons, strncmp]
          by_cases hab : a = b
          · rw [if_pos hab, ih (by simpa using hlen), hab]
            simp
          · have hne : a.toNat ≠ b.toNat := fun h => hab (Char.toNat_inj.mp h)
            rw [if_neg hab]
            constructor
            · intro h
              omega
            · intro h
              exact absurd (List.cons.inj h).1 hab

theorem strCmp_eq_zero (l r : Oid) : strCmp l r = 0 ↔ l = r := by
  have hlen : l.chars.length = r.chars.length := by rw [l.length_chars, r.length_chars]
  rw [strCmp, strncmp_eq_zero hlen]
  constructor
  · intro h
    cases l
    cases r
    simpa using h
  · rintro rfl
    rfl

instance : HashKey Oid where
  comparator := strCmp
  hashFunc := strHashFunc
  comparator_eq_zero := strCmp_eq_zero
  hashFunc_lt := fun _ _ h => Nat.mod_lt _ h

/-! ## Strings of one length -/

/-- A NUL-terminated string of `n` characters, given by the bytes in front of
its terminator. -/
structure StrKey (n : ℕ) where
  bytes : List UInt8
  length_bytes : bytes.length = n
  ne_zero : ∀ c ∈ bytes, c ≠ 0
deriving DecidableEq

namespace StrKey

variable {n : ℕ}

/-- `str_cmp`; `strncmp` takes the characters as unsigned. -/
def strCmp (l r : StrKey n) : Int :=
  strncmp l.bytes.length (l.bytes.map UInt8.toChar) (r.bytes.map UInt8.toChar)

/-- One turn of the loop of `str_hash_func`, where a `char` is widened with its
sign. -/
def strHashStep (h : UInt32) (c : UInt8) : UInt32 :=
  let h : UInt32 := (h <<< 4) + c.toInt8.toInt32.toUInt32
  let x : UInt32 := h &&& (0xF0000000 : UInt32)
  if x ≠ 0 then (h ^^^ (x >>> 24)) &&& ~~~x else h

def strHashFunc (key : StrKey n) (capacity : ℕ) : ℕ :=
  (key.bytes.foldl strHashStep 0 &&& (0x7FFFFFFF : UInt32)).toNat % capacity

theorem toChar_injective : Function.Injective UInt8.toChar := by
  intro a b h
  have hval : a.toUInt32 = b.toUInt32 := congrArg Char.val h
  exact UInt8.toUInt32_inj.mp hval

theorem strCmp_eq_zero (l r : StrKey n) : strCmp l r = 0 ↔ l = r := by
  have hlen : (l.bytes.map UInt8.toChar).length = (r.bytes.map UInt8.toChar).length := by
    rw [List.length_map, List.length_map, l.length_bytes, r.length_bytes]
  have hcmp := strncmp_eq_zero hlen
  rw [List.length_map] at hcmp
  rw [strCmp, hcmp, (List.map_injective_iff.mpr toChar_injective).eq_iff]
  constructor
  · intro h
    cases l
    cases r
    simpa using h
  · rintro rfl
    rfl

instance : HashKey (StrKey n) where
  comparator := strCmp
  hashFunc := strHashFunc
  comparator_eq_zero := strCmp_eq_zero
  hashFunc_lt := fun _ _ h => Nat.mod_lt _ h

end StrKey

end EceLib
