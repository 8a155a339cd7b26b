import Mathlib.Data.List.Basic
import Mathlib.Data.UInt

/-!
# MD5

The model of `lib/md5.c`, which turns the text that identifies a device into
the 32 characters of its OID.
-/

namespace EceLib

namespace Md5

def k : List UInt32 :=
  [0xd76aa478, 0xe8c7b756, 0x242070db, 0xc1bdceee,
   0xf57c0faf, 0x4787c62a, 0xa8304613, 0xfd469501,
   0x698098d8, 0x8b44f7af, 0xffff5bb1, 0x895cd7be,
   0x6b901122, 0xfd987193, 0xa679438e, 0x49b40821,
   0xf61e2562, 0xc040b340, 0x265e5a51, 0xe9b6c7aa,
   0xd62f105d, 0x02441453, 0xd8a1e681, 0xe7d3fbc8,
   0x21e1cde6, 0xc33707d6, 0xf4d50d87, 0x455a14ed,
   0xa9e3e905, 0xfcefa3f8, 0x676f02d9, 0x8d2a4c8a,
   0xfffa3942, 0x8771f681, 0x6d9d6122, 0xfde5380c,
   0xa4beea44, 0x4bdecfa9, 0xf6bb4b60, 0xbebfbc70,
   0x289b7ec6, 0xeaa127fa, 0xd4ef3085, 0x04881d05,
   0xd9d4d039, 0xe6db99e5, 0x1fa27cf8, 0xc4ac5665,
   0xf4292244, 0x432aff97, 0xab9423a7, 0xfc93a039,
   0x655b59c3, 0x8f0ccc92, 0xffeff47d, 0x85845dd1,
   0x6fa87e4f, 0xfe2ce6e0, 0xa3014314, 0x4e0811a1,
   0xf7537e82, 0xbd3af235, 0x2ad7d2bb, 0xeb86d391]

/-- The shift amounts of the rounds. -/
def r : List UInt32 :=
  [7, 12, 17, 22, 7, 12, 17, 22, 7, 12, 17, 22, 7, 12, 17, 22,
   5, 9, 14, 20, 5, 9, 14, 20, 5, 9, 14, 20, 5, 9, 14, 20,
   4, 11, 16, 23, 4, 11, 16, 23, 4, 11, 16, 23, 4, 11, 16, 23,
   6, 10, 15, 21, 6, 10, 15, 21, 6, 10, 15, 21, 6, 10, 15, 21]

def leftRotate (x c : UInt32) : UInt32 := (x <<< c) ||| (x >>> (32 - c))

def toBytes (val : UInt32) : List UInt8 :=
  [val.toUInt8, (val >>> 8).toUInt8, (val >>> 16).toUInt8, (val >>> 24).toUInt8]

/-- The word at `bytes + i`. -/
def toInt32 (bytes : List UInt8) (i : ℕ) : UInt32 :=
  (bytes.getD i 0).toUInt32
    ||| ((bytes.getD (i + 1) 0).toUInt32 <<< 8)
    ||| ((bytes.getD (i + 2) 0).toUInt32 <<< 16)
    ||| ((bytes.getD (i + 3) 0).toUInt32 <<< 24)

/-- The four words of the hash, also while a chunk is processed. -/
structure Words where
  a : UInt32
  b : UInt32
  c : UInt32
  d : UInt32

/-- One pass of the main loop. -/
def round (w : List UInt32) (s : Words) (i : ℕ) : Words :=
  let (f, g) :=
    if i < 16 then ((s.b &&& s.c) ||| (~~~s.b &&& s.d), i)
    else if i < 32 then ((s.d &&& s.b) ||| (~~~s.d &&& s.c), (5 * i + 1) % 16)
    else if i < 48 then (s.b ^^^ s.c ^^^ s.d, (3 * i + 5) % 16)
    else (s.c ^^^ (s.b ||| ~~~s.d), (7 * i) % 16)
  { a := s.d
    b := s.b + leftRotate (s.a + f + k.getD i 0 + w.getD g 0) (r.getD i 0)
    c := s.b
    d := s.c }

/-- Process the 512-bit chunk at `offset`. -/
def chunk (msg : List UInt8) (h : Words) (offset : ℕ) : Words :=
  let w := (List.range 16).map fun i => toInt32 msg (offset + i * 4)
  let s := (List.range 64).foldl (round w) h
  { a := h.a + s.a, b := h.b + s.b, c := h.c + s.c, d := h.d + s.d }

/-- The message with the `1` bit, the `0` bits up to 448 modulo 512 and its
length in bits. -/
def pad (msg : List UInt8) : List UInt8 :=
  let len := msg.length
  let zeros := (64 + 56 - (len + 1) % 64) % 64
  msg ++ [(0x80 : UInt8)] ++ List.replicate zeros (0 : UInt8)
    ++ toBytes (UInt32.ofNat (len * 8)) ++ toBytes (UInt32.ofNat (len >>> 29))

def md5 (msg : List UInt8) : List UInt8 :=
  let padded := pad msg
  let h := (List.range (padded.length / 64)).foldl
    (fun h n => chunk padded h (n * 64))
    { a := 0x67452301, b := 0xefcdab89, c := 0x98badcfe, d := 0x10325476 }
  toBytes h.a ++ toBytes h.b ++ toBytes h.c ++ toBytes h.d

theorem length_md5 (msg : List UInt8) : (md5 msg).length = 16 := rfl

end Md5

/-- One hexadecimal digit, as `%x` prints it. -/
def hexDigit (n : ℕ) : Char := Nat.digitChar n

/-- A byte printed with `%2.2x`. -/
def hexByte (b : UInt8) : List Char :=
  [hexDigit (b.toNat / 16), hexDigit (b.toNat % 16)]

/-- The text `md5_string` leaves in `res`. -/
def md5String (msg : List Char) : List Char :=
  (Md5.md5 (msg.map fun c => UInt8.ofNat c.toNat)).flatMap hexByte

theorem length_flatMap_hexByte (bytes : List UInt8) :
    (bytes.flatMap hexByte).length = 2 * bytes.length := by
  induction bytes with
  | nil => rfl
  | cons b bytes ih =>
      rw [List.flatMap_cons, List.length_append, ih]
      simp only [hexByte, List.length_cons, List.length_nil]
      omega

theorem length_md5String (msg : List Char) : (md5String msg).length = 32 := by
  rw [md5String, length_flatMap_hexByte, Md5.length_md5]

end EceLib
