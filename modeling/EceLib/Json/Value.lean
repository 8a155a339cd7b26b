import EceLib.Support.Chars
import EceLib.Support.Memory
import Mathlib.Data.Rat.Floor

/-!
# The items of `lib/cJSON.c`

The tree of a `cJSON`: its `type` is the constructor, `child` with the `next` of
the children is the chain behind it, and the `string` of a child stands in front
of it in the chain of an object.  A text is what precedes the terminator, so no
character of it is zero.  What `double` computes and how `printf` writes one are
parameters.
-/

namespace EceLib.Json

/-! ## Texts -/

/-- A character array that is read up to its terminator. -/
structure Text where
  chars : List Char
  ne_zero : ∀ c ∈ chars, c ≠ '\x00'
deriving DecidableEq

/-- The text that is found in an array. -/
def Text.of (chars : List Char) : Text where
  chars := chars.takeWhile (· ≠ '\x00')
  ne_zero := fun c hc =>
    of_decide_eq_true (p := c ≠ '\x00') (List.all_eq_true.mp List.all_takeWhile c hc)

theorem Text.chars_of {chars : List Char} (h : ∀ c ∈ chars, c ≠ '\x00') :
    (Text.of chars).chars = chars := by
  have hall : ∀ c ∈ chars, decide (c ≠ '\x00') = true := fun c hc => decide_eq_true (h c hc)
  have happend : (chars ++ []).takeWhile (· ≠ '\x00') = chars ++ [].takeWhile (· ≠ '\x00') :=
    List.takeWhile_append_of_pos hall
  simpa [Text.of] using happend

@[simp] theorem Text.of_chars (t : Text) : Text.of t.chars = t := by
  obtain ⟨chars, h⟩ := t
  rw [Text.mk.injEq]
  exact Text.chars_of h

/-- `tolower`. -/
def tolower (c : Char) : Char := if c ≥ 'A' && c ≤ 'Z' then Char.ofNat (c.toNat + 32) else c

/-- `cJSON_strcasecmp` finds no difference. -/
def sameText (s1 s2 : Text) : Bool := s1.chars.map tolower == s2.chars.map tolower

/-! ## Numbers -/

/-- What is computed in `double`, and how `printf` writes one. -/
structure Double (F : Type) where
  /-- A literal, or an integer that is converted. -/
  ofRat : ℚ → F
  add : F → F → F
  sub : F → F → F
  mul : F → F → F
  abs : F → F
  floor : F → F
  pow : F → F → F
  le : F → F → Bool
  lt : F → F → Bool
  /-- `(int)d`. -/
  toInt : F → Int32
  /-- `%.0f` and `%f`, with the number of digits behind the point. -/
  fixed : ℕ → F → List Char
  /-- `%e`. -/
  scientific : F → List Char

variable {F : Type}

/-- An integer as a `double`. -/
def Double.ofInt (dt : Double F) (n : ℤ) : F := dt.ofRat n

/-- `DBL_EPSILON`. -/
def Double.epsilon (dt : Double F) : F := dt.ofRat (1 / 2 ^ 52)

def intMax : ℤ := 2147483647

def intMin : ℤ := -2147483648

/-- What `%d` writes. -/
def decimal (n : ℤ) : List Char :=
  if n < 0 then '-' :: Nat.toDigits 10 n.natAbs else Nat.toDigits 10 n.natAbs

/-! ## Whole numbers for `double` -/

/-- `%e` of a whole number, whose digits behind the sixth are dropped. -/
def scientificInt (n : ℤ) : List Char :=
  let digits := Nat.toDigits 10 n.natAbs
  ((if n < 0 then ['-'] else []) ++ digits.take 1 ++
    '.' :: (digits.tail ++ List.replicate 6 '0').take 6
    ++ 'e' :: '+' :: decimal (digits.length - 1)).take 14

/-- The arithmetic of whole numbers, where nothing is rounded. -/
def intDouble : Double ℤ where
  ofRat := Rat.floor
  add := (· + ·)
  sub := (· - ·)
  mul := (· * ·)
  abs n := n.natAbs
  floor := id
  pow m n := m ^ n.toNat
  le m n := decide (m ≤ n)
  lt m n := decide (m < n)
  toInt := Int32.ofInt
  fixed k n := decimal n ++ if k = 0 then [] else '.' :: List.replicate k '0'
  scientific := scientificInt

@[simp] theorem ofInt_intDouble (n : ℤ) : intDouble.ofInt n = n := Rat.floor_intCast n

theorem lt_intDouble (m n : ℤ) : intDouble.lt m n = decide (m < n) := rfl

theorem abs_intDouble (n : ℤ) : intDouble.abs n = n.natAbs := rfl

/-! ## Items -/

mutual

/-- A `cJSON` that is no reference. -/
inductive Value (F : Type) where
  | null
  | bool (b : Bool)
  | number (valueint : Int32) (valuedouble : F)
  | string (valuestring : Text)
  | array (child : Elements F)
  | object (child : Members F)

/-- The children of an array. -/
inductive Elements (F : Type) where
  | nil
  | cons (item : Value F) (next : Elements F)

/-- The children of an object. -/
inductive Members (F : Type) where
  | nil
  | cons (string : Text) (item : Value F) (next : Members F)

end

/-- `cJSON_CreateNumber`. -/
def createNumber (dt : Double F) (num : F) : Value F := .number (dt.toInt num) num

/-- `cJSON_CreateString`. -/
def createString (string : Text) : Value F := .string string

/-- `cJSON_CreateObject`. -/
def createObject : Members F := .nil

/-- `cJSON_AddItemToObject`, on the chain of the object. -/
def addItemToObject : Members F → Text → Value F → Members F
  | .nil, string, item => .cons string item .nil
  | .cons string' item' next, string, item =>
      .cons string' item' (addItemToObject next string item)

/-- `cJSON_GetObjectItem`. -/
def getObjectItem : Members F → Text → Option (Value F)
  | .nil, _ => none
  | .cons string' item next, string =>
      if sameText string' string then some item else getObjectItem next string

end EceLib.Json
