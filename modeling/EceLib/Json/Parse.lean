import EceLib.Json.Value

/-!
# Parsing an item

`parse_value` of `lib/cJSON.c` and the functions below it.  A pointer into the
text is what follows it up to the terminator.  `parse_string` passes the
terminator where an escape is cut off there, and writes to memory it counted in
a pass of its own; both can go wrong.  The depth of the recursion is bounded by
a number that the length of the text gives.
-/

namespace EceLib.Json

variable {F : Type}

/-- Why there is no item. -/
inductive Fault where
  /-- The result is `NULL`, and `ep` points here. -/
  | malformed (ep : List Char)
  /-- The terminator is passed. -/
  | overread
  /-- `out` is too small. -/
  | overrun
  /-- The bound of the recursion is reached. -/
  | deep
deriving DecidableEq

/-- `skip`. -/
def skip (text : List Char) : List Char := text.dropWhile (·.toNat ≤ 32)

/-! ## Numbers -/

/-- The value of a digit. -/
def digitValue (c : Char) : ℤ := c.toNat - '0'.toNat

/-- `n=(n*10.0)+(*num++ -'0')`, digit by digit. -/
def readDigits (dt : Double F) (n : F) (digits : List Char) : F :=
  digits.foldl (fun n c => dt.add (dt.mul n (dt.ofInt 10)) (dt.ofInt (digitValue c))) n

/-- The exponent, with its sign, and what follows it. -/
def parseExponent (num : List Char) : ℤ × List Char :=
  if num.head? = some 'e' ∨ num.head? = some 'E' then
    let num := num.tail
    let signsubscale : ℤ := if num.head? = some '-' then -1 else 1
    let num := if num.head? = some '+' ∨ num.head? = some '-' then num.tail else num
    let subscale := (num.takeWhile Char.isDigit).foldl (fun k c => k * 10 + digitValue c) 0
    (subscale * signsubscale, num.dropWhile Char.isDigit)
  else (0, num)

/-- The digits in front of the point; a zero there is passed first. -/
def parseWhole (dt : Double F) (num : List Char) : F × List Char :=
  let num := if num.head? = some '0' then num.tail else num
  if num.head?.any fun c => c ≥ '1' && c ≤ '9' then
    (readDigits dt (dt.ofInt 0) (num.takeWhile Char.isDigit), num.dropWhile Char.isDigit)
  else (dt.ofInt 0, num)

/-- The digits behind the point. -/
def parseFraction (num : List Char) : List Char × List Char :=
  if num.head? = some '.' ∧ num.tail.head?.any Char.isDigit then
    (num.tail.takeWhile Char.isDigit, num.tail.dropWhile Char.isDigit)
  else ([], num)

/-- `parse_number`. -/
def parseNumber (dt : Double F) (num : List Char) : Value F × List Char :=
  let sign : ℤ := if num.head? = some '-' then -1 else 1
  let num := if num.head? = some '-' then num.tail else num
  let (n, num) := parseWhole dt num
  let (fraction, num) := parseFraction num
  let (subscale, num) := parseExponent num
  let n := dt.mul (dt.mul (dt.ofInt sign) (readDigits dt n fraction))
    (dt.pow (dt.ofInt 10) (dt.ofInt (subscale - fraction.length)))
  (createNumber dt n, num)

/-! ## Strings -/

def hexValue (c : Char) : Option ℕ :=
  if c ≥ '0' && c ≤ '9' then some (c.toNat - '0'.toNat)
  else if c ≥ 'A' && c ≤ 'F' then some (10 + c.toNat - 'A'.toNat)
  else if c ≥ 'a' && c ≤ 'f' then some (10 + c.toNat - 'a'.toNat)
  else none

/-- `parse_hex4`: zero if there is another character among the four. -/
def parseHex4 (c₁ c₂ c₃ c₄ : Char) : ℕ :=
  (hexValue c₁).elim 0 fun h₁ => (hexValue c₂).elim 0 fun h₂ => (hexValue c₃).elim 0 fun h₃ =>
    (hexValue c₄).elim 0 fun h₄ => ((h₁ * 16 + h₂) * 16 + h₃) * 16 + h₄

/-- The bytes of a character behind its first one. -/
def tailByte (uc : ℕ) : Char := Char.ofNat ((uc ||| 0x80) &&& 0xBF)

/-- The bytes of a character, with `firstByteMark` in the first of them. -/
def utf8 (uc : ℕ) : List Char :=
  if uc < 0x80 then [Char.ofNat uc]
  else if uc < 0x800 then [Char.ofNat ((uc >>> 6) ||| 0xC0), tailByte uc]
  else if uc < 0x10000 then
    [Char.ofNat ((uc >>> 12) ||| 0xE0), tailByte (uc >>> 6), tailByte uc]
  else
    [Char.ofNat ((uc >>> 18) ||| 0xF0), tailByte (uc >>> 12), tailByte (uc >>> 6), tailByte uc]

/-- What an escape without a code stands for. -/
def unescapeChar (c : Char) : Char :=
  if c = 'b' then '\x08' else if c = 'f' then '\x0c' else if c = 'n' then '\n'
  else if c = 'r' then '\r' else if c = 't' then '\t' else c

/-- Write some bytes in front of what the rest of the string leads to. -/
def emit (out : List Char) (r : Except Fault (List Char × List Char)) :
    Except Fault (List Char × List Char) :=
  r.map fun rest => (out ++ rest.1, rest.2)

/-- The first loop of `parse_string`: how many characters the string has. -/
def countString : List Char → Except Fault ℕ
  | [] => .ok 0
  | c :: ptr =>
      if c = '"' then .ok 0
      else if c = '\\' then
        match ptr with
        | [] => .error .overread
        | _ :: ptr => (countString ptr).map (1 + ·)
      else (countString ptr).map (1 + ·)

@[simp] theorem countString_quote (ptr : List Char) : countString ('"' :: ptr) = .ok 0 := by
  rw [countString.eq_def]
  simp

@[simp] theorem countString_backslash (c : Char) (ptr : List Char) :
    countString ('\\' :: c :: ptr) = (countString ptr).map (1 + ·) := by
  rw [countString.eq_def]
  simp

theorem countString_cons {c : Char} (hquote : c ≠ '"') (hbackslash : c ≠ '\\') (ptr : List Char) :
    countString (c :: ptr) = (countString ptr).map (1 + ·) := by
  rw [countString.eq_def]
  simp [hquote, hbackslash]

/-- The second loop of `parse_string`: what is written to `out`, and what
follows the string. -/
def unescape : List Char → Except Fault (List Char × List Char)
  | [] => .ok ([], [])
  | c :: ptr =>
      if c = '"' then .ok ([], ptr)
      else if c ≠ '\\' then emit [c] (unescape ptr)
      else
        match ptr with
        | [] => .error .overread
        | 'u' :: c₁ :: c₂ :: c₃ :: c₄ :: ptr =>
            let uc := parseHex4 c₁ c₂ c₃ c₄
            -- An invalid code leaves nothing behind.
            if (uc ≥ 0xDC00 && uc ≤ 0xDFFF) || uc = 0 then unescape ptr
            else if uc ≥ 0xD800 && uc ≤ 0xDBFF then
              match ptr with
              | '\\' :: 'u' :: c₁ :: c₂ :: c₃ :: c₄ :: ptr =>
                  let uc2 := parseHex4 c₁ c₂ c₃ c₄
                  if uc2 < 0xDC00 || uc2 > 0xDFFF then unescape ptr
                  else emit (utf8 (0x10000 + (((uc &&& 0x3FF) <<< 10) ||| (uc2 &&& 0x3FF))))
                    (unescape ptr)
              | '\\' :: 'u' :: _ => .error .overread
              | ptr => unescape ptr
            else emit (utf8 uc) (unescape ptr)
        | 'u' :: _ => .error .overread
        | c :: ptr => emit [unescapeChar c] (unescape ptr)

@[simp] theorem unescape_quote (ptr : List Char) : unescape ('"' :: ptr) = .ok ([], ptr) := by
  rw [unescape.eq_def]
  simp

theorem unescape_cons {c : Char} (hquote : c ≠ '"') (hbackslash : c ≠ '\\') (ptr : List Char) :
    unescape (c :: ptr) = emit [c] (unescape ptr) := by
  rw [unescape.eq_def]
  simp [hquote, hbackslash]

/-- `parse_string`. -/
def parseString (str : List Char) : Except Fault (Text × List Char) :=
  if str.head? = some '"' then do
    let len ← countString str.tail
    let (out, ptr) ← unescape str.tail
    if out.length ≤ len then pure (Text.of out, ptr) else .error .overrun
  else .error (.malformed str)

/-! ## Items -/

/-- The closing bracket behind the children. -/
def closeChildren {α : Type} (bracket : Char) (item : α) (value : List Char) :
    Except Fault (α × List Char) :=
  if value.head? = some bracket then .ok (item, value.tail) else .error (.malformed value)

mutual

/-- `parse_value`, with `parse_array` and `parse_object`. -/
def parseValue (dt : Double F) : ℕ → List Char → Except Fault (Value F × List Char)
  | 0, _ => .error .deep
  | fuel + 1, value =>
      if ['n', 'u', 'l', 'l'].isPrefixOf value then .ok (.null, value.drop 4)
      else if ['f', 'a', 'l', 's', 'e'].isPrefixOf value then .ok (.bool false, value.drop 5)
      else if ['t', 'r', 'u', 'e'].isPrefixOf value then .ok (.bool true, value.drop 4)
      else if value.head? = some '"' then do
        let (valuestring, value) ← parseString value
        pure (.string valuestring, value)
      else if value.head?.any fun c => c = '-' || c.isDigit then .ok (parseNumber dt value)
      else if value.head? = some '[' then
        let value := skip value.tail
        if value.head? = some ']' then .ok (.array .nil, value.tail)
        else do
          let (child, value) ← parseElements dt fuel value
          closeChildren ']' (.array child) value
      else if value.head? = some '{' then
        let value := skip value.tail
        if value.head? = some '}' then .ok (.object .nil, value.tail)
        else do
          let (child, value) ← parseMembers dt fuel value
          closeChildren '}' (.object child) value
      else .error (.malformed value)

/-- The children of an array, from one of them on. -/
def parseElements (dt : Double F) : ℕ → List Char → Except Fault (Elements F × List Char)
  | 0, _ => .error .deep
  | fuel + 1, value => do
      let (item, value) ← parseValue dt fuel (skip value)
      let value := skip value
      if value.head? = some ',' then do
        let (next, value) ← parseElements dt fuel value.tail
        pure (.cons item next, value)
      else pure (.cons item .nil, value)

/-- The children of an object, from one of them on. -/
def parseMembers (dt : Double F) : ℕ → List Char → Except Fault (Members F × List Char)
  | 0, _ => .error .deep
  | fuel + 1, value => do
      let (string, value) ← parseString (skip value)
      let value := skip value
      if value.head? ≠ some ':' then .error (.malformed value)
      else do
        let (item, value) ← parseValue dt fuel (skip value.tail)
        let value := skip value
        if value.head? = some ',' then do
          let (next, value) ← parseMembers dt fuel value.tail
          pure (.cons string item next, value)
        else pure (.cons string item .nil, value)

end

/-- `cJSON_ParseWithOpts`, with what `return_parse_end` is set to. -/
def parseWithOpts (dt : Double F) (value : Text) (requireNullTerminated : Bool) :
    Except Fault (Value F × List Char) := do
  let (c, rest) ← parseValue dt (2 * value.chars.length + 1) (skip value.chars)
  if requireNullTerminated then
    let rest := skip rest
    if rest = [] then pure (c, rest) else .error (.malformed rest)
  else pure (c, rest)

/-- `cJSON_Parse`. -/
def parse (dt : Double F) (value : Text) : Except Fault (Value F) :=
  (parseWithOpts dt value false).map Prod.fst

end EceLib.Json
