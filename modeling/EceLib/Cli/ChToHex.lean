import EceLib.Support.Memory

/-!
# Hexadecimal arguments

The model of `ch_to_hex` of `lib/misc.c`, with the characters it reads and the
bytes it writes.  It takes two characters at a time and writes a byte as soon
as the first of them is a digit, wherever the destination ends.  The index is an
`int`, and has no next value at the end of its range.
-/

namespace EceLib

open Support

/-- A NUL-terminated string, given by the bytes in front of its terminator. -/
structure CStr where
  bytes : List UInt8
  ne_zero : ∀ c ∈ bytes, c ≠ 0

def CStr.empty : CStr where
  bytes := []
  ne_zero := by simp

/-- The variables that are filled from arguments. -/
inductive Destination where
  | topic
  | key
  | tokenTopic
  | addr
  | appFilePkt
deriving DecidableEq

def Destination.size : Destination → ℕ
  | topic | key | tokenTopic => 4
  | addr => 64
  | appFilePkt => 512

/-- What a command accesses: an argument with its terminator, or a destination. -/
inductive CliBuffer where
  | arg
  | dst (d : Destination)
deriving DecidableEq

/-! ## The conversion -/

def toupper (c : UInt8) : UInt8 := if 0x61 ≤ c ∧ c ≤ 0x7A then c - 0x20 else c

def isxdigit (c : UInt8) : Bool :=
  (0x30 ≤ c && c ≤ 0x39) || (0x41 ≤ c && c ≤ 0x46) || (0x61 ≤ c && c ≤ 0x66)

/-- The character counts as a digit. -/
def isHex (c : UInt8) : Bool := isxdigit (toupper c)

/-- What a digit stands for. -/
def hexVal (c : UInt8) : UInt8 :=
  let ch := toupper c
  if 0x41 ≤ ch ∧ ch ≤ 0x46 then ch - 0x41 + 10 else ch - 0x30

/-- The largest `int`. -/
def intMax : ℕ := 2147483647

/-- The loop of `ch_to_hex`, on what is left of a string of `len` characters;
`bits` is what has been written to a destination of `size` bytes, and the index
is twice their number.  A byte is written with its first digit and again with
its second. -/
def chToHexLoop (dst : Destination) (size len : ℕ) :
    List UInt8 → List UInt8 → Traced CliBuffer (ℕ × List UInt8)
  | [], bits => do
      Traced.touch ⟨.arg, 2 * bits.length, 1, len + 1⟩
      pure (bits.length, bits)
  | [a], bits => do
      Traced.touch ⟨.arg, 2 * bits.length, 1, len + 1⟩
      if isHex a then do
        Traced.require ⟨.dst dst, bits.length, 1, size⟩
        Traced.touch ⟨.arg, 2 * bits.length + 1, 1, len + 1⟩
        pure (0, bits ++ [hexVal a])
      else pure (0, bits)
  | a :: b :: s, bits => do
      Traced.touch ⟨.arg, 2 * bits.length, 1, len + 1⟩
      if isHex a then do
        Traced.require ⟨.dst dst, bits.length, 1, size⟩
        Traced.touch ⟨.arg, 2 * bits.length + 1, 1, len + 1⟩
        if isHex b then
          -- `i += 2`
          if 2 * bits.length + 2 ≤ intMax then
            chToHexLoop dst size len s (bits ++ [(hexVal a <<< 4) ||| hexVal b])
          else Traced.stop
        else pure (0, bits ++ [hexVal a])
      else pure (0, bits)

/-- `ch_to_hex`: the length it returns, and the bytes it has written. -/
def chToHex (dst : Destination) (size : ℕ) (s : CStr) : Traced CliBuffer (ℕ × List UInt8) :=
  chToHexLoop dst size s.bytes.length s.bytes []

/-! ## What is written -/

/-- An access to a destination stays inside it. -/
def InDestination (a : Access CliBuffer) : Prop := a.buf ≠ .arg → a.InBounds

theorem inDestination_arg (off len size : ℕ) : InDestination ⟨.arg, off, len, size⟩ :=
  fun h => absurd rfl h

theorem inDestination_dst {dst : Destination} {off len size : ℕ} :
    InDestination ⟨.dst dst, off, len, size⟩ ↔ off + len ≤ size :=
  ⟨fun h => h (by simp), fun h _ => h⟩

/-- The digits a string begins with. -/
def hexPrefix (s : List UInt8) : ℕ := (s.takeWhile isHex).length

theorem hexPrefix_cons (a : UInt8) (s : List UInt8) :
    hexPrefix (a :: s) = if isHex a then hexPrefix s + 1 else 0 := by
  unfold hexPrefix
  rw [List.takeWhile_cons]
  split
  · rfl
  · rfl

theorem hexPrefix_of_pair {a b : UInt8} (ha : isHex a) (hb : isHex b) (s : List UInt8) :
    hexPrefix (a :: b :: s) = hexPrefix s + 2 := by
  rw [hexPrefix_cons, if_pos ha, hexPrefix_cons, if_pos hb]

/-- How many bytes are written for a string. -/
def bytesWritten (s : List UInt8) : ℕ := (hexPrefix s + 1) / 2

theorem bytesWritten_of_not_hex {a : UInt8} (ha : ¬ isHex a) (s : List UInt8) :
    bytesWritten (a :: s) = 0 := by
  rw [bytesWritten, hexPrefix_cons, if_neg ha]

/-- A digit without a second one is written as well. -/
theorem bytesWritten_of_single {a : UInt8} (ha : isHex a) {s : List UInt8}
    (hs : hexPrefix s = 0) : bytesWritten (a :: s) = 1 := by
  rw [bytesWritten, hexPrefix_cons, if_pos ha, hs]

theorem bytesWritten_of_pair {a b : UInt8} (ha : isHex a) (hb : isHex b) (s : List UInt8) :
    bytesWritten (a :: b :: s) = bytesWritten s + 1 := by
  rw [bytesWritten, hexPrefix_of_pair ha hb, bytesWritten]
  omega

theorem each_chToHexLoop_iff (dst : Destination) {size : ℕ} (hsize : 2 * size ≤ intMax)
    (len : ℕ) (s : List UInt8) {bits : List UInt8} (hbits : bits.length ≤ size) :
    (chToHexLoop dst size len s bits).Each InDestination ↔
      bits.length + bytesWritten s ≤ size := by
  induction s, bits using chToHexLoop.induct with
  | case1 bits =>
      rw [chToHexLoop, Traced.each_touch_bind]
      exact iff_of_true ⟨inDestination_arg _ _ _, Traced.each_pure _⟩ hbits
  | case2 a bits =>
      rw [chToHexLoop, Traced.each_touch_bind, and_iff_right (inDestination_arg _ _ _)]
      by_cases ha : isHex a
      · rw [if_pos ha, bytesWritten_of_single ha rfl, Traced.each_require_bind,
          inDestination_dst]
        refine and_iff_left_of_imp fun _ _ => ?_
        exact Traced.each_touch_bind.mpr ⟨inDestination_arg _ _ _, Traced.each_pure _⟩
      · rw [if_neg ha, bytesWritten_of_not_hex ha]
        exact iff_of_true (Traced.each_pure _) hbits
  | case3 a b s bits ih =>
      rw [chToHexLoop, Traced.each_touch_bind, and_iff_right (inDestination_arg _ _ _)]
      by_cases ha : isHex a
      · rw [if_pos ha, Traced.each_require_bind, inDestination_dst]
        by_cases hb : isHex b
        · rw [bytesWritten_of_pair ha hb]
          have hlen : (bits ++ [hexVal a <<< 4 ||| hexVal b]).length = bits.length + 1 := by simp
          constructor
          · rintro ⟨hfits, hrest⟩
            have heach := (Traced.each_touch_bind.mp (hrest hfits)).2
            rw [if_pos hb, if_pos (by omega)] at heach
            have hall := (ih (by omega)).mp heach
            omega
          · intro hall
            have hfits : bits.length + 1 ≤ size := by omega
            refine ⟨hfits, fun _ => Traced.each_touch_bind.mpr ⟨inDestination_arg _ _ _, ?_⟩⟩
            rw [if_pos hb, if_pos (by omega)]
            exact (ih (by omega)).mpr (by omega)
        · rw [bytesWritten_of_single ha (by rw [hexPrefix_cons, if_neg hb])]
          refine and_iff_left_of_imp fun _ _ => ?_
          refine Traced.each_touch_bind.mpr ⟨inDestination_arg _ _ _, ?_⟩
          rw [if_neg hb]
          exact Traced.each_pure _
      · rw [if_neg ha, bytesWritten_of_not_hex ha]
        exact iff_of_true (Traced.each_pure _) hbits

/-- The bytes that `ch_to_hex` writes are in the destination exactly if there
are as many. -/
theorem each_chToHex_iff (dst : Destination) {size : ℕ} (hsize : 2 * size ≤ intMax) (s : CStr) :
    (chToHex dst size s).Each InDestination ↔ bytesWritten s.bytes ≤ size := by
  have hnil : ([] : List UInt8).length ≤ size := Nat.zero_le size
  rw [chToHex, each_chToHexLoop_iff dst hsize s.bytes.length s.bytes hnil, List.length_nil,
    Nat.zero_add]

/-! ## What is returned -/

/-- A string of digits in pairs. -/
def HexPairs (s : List UInt8) : Prop := (∀ c ∈ s, isHex c) ∧ s.length % 2 = 0

instance (s : List UInt8) : Decidable (HexPairs s) := inferInstanceAs (Decidable (_ ∧ _))

theorem hexPairs_cons_cons {a b : UInt8} {s : List UInt8} :
    HexPairs (a :: b :: s) ↔ isHex a ∧ isHex b ∧ HexPairs s := by
  simp only [HexPairs, List.forall_mem_cons, List.length_cons]
  have hparity : (s.length + 1 + 1) % 2 = s.length % 2 := by omega
  rw [hparity, and_assoc, and_assoc]

/-- The bytes of a string of pairs. -/
def pairBytes : List UInt8 → List UInt8
  | a :: b :: s => ((hexVal a <<< 4) ||| hexVal b) :: pairBytes s
  | _ => []

/-- The length that is returned is that of the bytes of a string of pairs, and
zero for any other. -/
theorem val_chToHexLoop (dst : Destination) {size : ℕ} (len : ℕ) (s : List UInt8)
    {bits : List UInt8} (hfits : bits.length + bytesWritten s ≤ size)
    (hint : 2 * bits.length + hexPrefix s ≤ intMax) :
    ∃ out, (chToHexLoop dst size len s bits).val =
        some (if HexPairs s then bits.length + s.length / 2 else 0, out) ∧
      (HexPairs s → out = bits ++ pairBytes s) := by
  induction s, bits using chToHexLoop.induct with
  | case1 bits => exact ⟨bits, by simp [chToHexLoop, HexPairs], by simp [pairBytes]⟩
  | case2 a bits =>
      have hodd : ¬ HexPairs [a] := fun h => absurd h.2 (by simp)
      rw [if_neg hodd, chToHexLoop]
      by_cases ha : isHex a
      · rw [bytesWritten_of_single ha rfl] at hfits
        refine ⟨bits ++ [hexVal a], ?_, fun h => absurd h hodd⟩
        simp [ha, Traced.val_require, Access.InBounds, hfits]
      · exact ⟨bits, by simp [ha], fun h => absurd h hodd⟩
  | case3 a b s bits ih =>
      rw [chToHexLoop]
      by_cases ha : isHex a
      · by_cases hb : isHex b
        · rw [bytesWritten_of_pair ha hb] at hfits
          rw [hexPrefix_of_pair ha hb] at hint
          have hlen : (bits ++ [hexVal a <<< 4 ||| hexVal b]).length = bits.length + 1 := by simp
          obtain ⟨out, hout, hbytes⟩ := ih (by omega) (by omega)
          have hbounds : bits.length + 1 ≤ size := by omega
          have hnext : 2 * bits.length + 2 ≤ intMax := by omega
          have hcount : (a :: b :: s).length / 2 = s.length / 2 + 1 := by
            simp only [List.length_cons]
            omega
          refine ⟨out, ?_, fun hpairs => ?_⟩
          · simp only [ha, hb, hexPairs_cons_cons, if_true, true_and, Traced.val_bind,
              Traced.val_touch, Traced.val_require, Access.InBounds, hbounds, hnext,
              Option.bind_some, hout, hlen, hcount, Nat.add_assoc, Nat.add_comm 1]
          · rw [hbytes (hexPairs_cons_cons.mp hpairs).2.2, pairBytes, List.append_assoc]
            rfl
        · have hbad : ¬ HexPairs (a :: b :: s) := fun h => hb (hexPairs_cons_cons.mp h).2.1
          rw [bytesWritten_of_single ha (by rw [hexPrefix_cons, if_neg hb])] at hfits
          refine ⟨bits ++ [hexVal a], ?_, fun h => absurd h hbad⟩
          simp [ha, hb, hbad, Traced.val_require, Access.InBounds, hfits]
      · have hbad : ¬ HexPairs (a :: b :: s) := fun h => ha (hexPairs_cons_cons.mp h).1
        exact ⟨bits, by simp [ha, hbad], fun h => absurd h hbad⟩

end EceLib
