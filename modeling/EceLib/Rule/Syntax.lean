import EceLib.Support.Chars
import Mathlib.Data.List.Basic
import Mathlib.Algebra.Ring.Int.Defs
import Mathlib.Data.Int.Notation
import Mathlib.Logic.Function.Iterate

/-!
# The expressions of the rules

The operators and the trees of `expr.h`, and what its functions ask of `float`.
The only caller passes an empty table of functions, so `OP_FUNC` does not occur.
-/

namespace EceLib.Rule

/-! ## Operators -/

inductive UnaryOp where
  | minus
  | logicalNot
  | bitwiseNot
  deriving DecidableEq, Repr

inductive BinaryOp where
  | power
  | divide
  | multiply
  | remainder
  | plus
  | minus
  | shl
  | shr
  | lt
  | le
  | gt
  | ge
  | eq
  | ne
  | bitwiseAnd
  | bitwiseOr
  | bitwiseXor
  | logicalAnd
  | logicalOr
  | assign
  | comma
  deriving DecidableEq, Repr

/-- `enum expr_type`, as far as `expr_op` returns it. -/
inductive ExprType where
  | unknown
  | unary (op : UnaryOp)
  | binary (op : BinaryOp)
  deriving DecidableEq, Repr

def exprIsUnary : ExprType → Bool
  | .unary _ => true
  | _ => false

def exprIsBinary : ExprType → Bool
  | .binary _ => true
  | _ => false

/-- The table `prec`. -/
def prec : ExprType → ℕ
  | .unknown => 0
  | .unary _ => 1
  | .binary .power | .binary .divide | .binary .multiply | .binary .remainder => 2
  | .binary .plus | .binary .minus => 3
  | .binary .shl | .binary .shr => 4
  | .binary .lt | .binary .le | .binary .gt | .binary .ge | .binary .eq | .binary .ne => 5
  | .binary .bitwiseAnd => 6
  | .binary .bitwiseOr => 7
  | .binary .bitwiseXor => 8
  | .binary .logicalAnd => 9
  | .binary .logicalOr => 10
  | .binary .assign => 11
  | .binary .comma => 12

/-- The operator `b` before `a` is bound first. -/
def exprPrec (a b : ExprType) : Bool :=
  let left := exprIsBinary a && a != .binary .assign && a != .binary .power && a != .binary .comma
  (left && prec a ≥ prec b) || prec a > prec b

/-- The table `OPS`.  The lexer uses the last three entries. -/
def OPS : List (List Char × ExprType) := [
  (['-', 'u'], .unary .minus),
  (['!', 'u'], .unary .logicalNot),
  (['^', 'u'], .unary .bitwiseNot),
  (['*', '*'], .binary .power),
  (['*'], .binary .multiply),
  (['/'], .binary .divide),
  (['%'], .binary .remainder),
  (['+'], .binary .plus),
  (['-'], .binary .minus),
  (['<', '<'], .binary .shl),
  (['>', '>'], .binary .shr),
  (['<'], .binary .lt),
  (['<', '='], .binary .le),
  (['>'], .binary .gt),
  (['>', '='], .binary .ge),
  (['=', '='], .binary .eq),
  (['!', '='], .binary .ne),
  (['&'], .binary .bitwiseAnd),
  (['|'], .binary .bitwiseOr),
  (['^'], .binary .bitwiseXor),
  (['&', '&'], .binary .logicalAnd),
  (['|', '|'], .binary .logicalOr),
  (['='], .binary .assign),
  ([','], .binary .comma),
  (['-'], .unary .minus),
  (['!'], .unary .logicalNot),
  (['^'], .unary .bitwiseNot)]

/-- `expr_op`; `unary` is `none` for -1. -/
def exprOp (s : List Char) (unary : Option Bool) : ExprType :=
  match OPS.find? fun o => o.1 == s && (unary.isNone || unary == some (exprIsUnary o.2)) with
  | some o => o.2
  | none => .unknown

/-! ## Characters -/

def isFirstVarChr (c : Char) : Bool := (c.toNat ≥ '@'.toNat && c != '^' && c != '|') || c == '$'

def isVarChr (c : Char) : Bool :=
  (c.toNat ≥ '@'.toNat && c != '^' && c != '|') || c == '$' || c == '#' || (c ≥ '0' && c ≤ '9')

/-- `isspace` of the C locale. -/
def isSpace (c : Char) : Bool :=
  c == ' ' || c == '\n' || c == '\t' || c == '\r' || c.toNat == 11 || c.toNat == 12

def isDigit (c : Char) : Bool := c ≥ '0' && c ≤ '9'

/-! ## Numbers -/

/-- What the program uses of `float`, of the functions of `math.h` and of the
compiler, which chooses the operand of an operator that is evaluated first. -/
structure Target (F : Type) where
  ofInt : ℤ → F
  neg : F → F
  add : F → F → F
  sub : F → F → F
  mul : F → F → F
  div : F → F → F
  powf : F → F → F
  fmodf : F → F → F
  lt : F → F → Bool
  le : F → F → Bool
  eq : F → F → Bool
  isNaN : F → Bool
  /-- 1 and -1 for the infinities -/
  isInf : F → ℤ
  /-- the integer part -/
  trunc : F → ℤ
  leftFirst : BinaryOp → Bool

/-- Small whole numbers are the same as in `float`. -/
def intTarget : Target ℤ where
  ofInt := id
  neg := Neg.neg
  add := (· + ·)
  sub := (· - ·)
  mul := (· * ·)
  div := Int.tdiv
  powf x y := x ^ y.toNat
  fmodf := Int.tmod
  lt x y := x < y
  le x y := x ≤ y
  eq x y := x == y
  isNaN _ := false
  isInf _ := 0
  trunc := id
  leftFirst _ := true

variable {F : Type} (ft : Target F)

/-- The loop of `expr_parse_number`: the number, and the digits after the point
and one if there is a point. -/
def parseDigits : List Char → F → ℕ → Option (F × ℕ)
  | [], num, frac => some (num, frac)
  | c :: s, num, frac =>
      if c = '.' ∧ frac = 0 then parseDigits s num 1
      else if isDigit c then
        parseDigits s (ft.add (ft.mul num (ft.ofInt 10)) (ft.ofInt (c.toNat - '0'.toNat)))
          (if frac > 0 then frac + 1 else frac)
      else none

/-- `none` is `NAN`; digits never give it. -/
def exprParseNumber (s : List Char) : Option F :=
  (parseDigits ft s (ft.ofInt 0) 0).bind fun (num, frac) =>
    if s.any isDigit then some ((fun num => ft.div num (ft.ofInt 10))^[frac - 1] num) else none

/-! ## Trees and variables -/

/-- `struct expr`.  A variable is referred to by its name; no two variables of a
list have the same. -/
inductive Expr (F : Type) where
  | const (value : F)
  | var (name : List Char)
  | unary (op : UnaryOp) (arg : Expr F)
  | binary (op : BinaryOp) (a b : Expr F)
  deriving DecidableEq, Repr

/-- `struct expr_var_list`, the head first. -/
abbrev VarList (F : Type) := List (List Char × F)

/-- `expr_var`: the list with the variable, or `none` for a bad name. -/
def exprVar (vars : VarList F) (s : List Char) : Option (VarList F) :=
  match s with
  | [] => none
  | c :: _ =>
      if !isFirstVarChr c then none
      else if vars.any (·.1 == s) then some vars
      else some ((s, ft.ofInt 0) :: vars)

end EceLib.Rule
