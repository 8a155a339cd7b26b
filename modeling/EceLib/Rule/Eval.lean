import Mathlib.Data.Int.Notation
import EceLib.Rule.Syntax

/-!
# The value of an expression

`expr_eval`.  C leaves open which operand of most operators is evaluated first,
and some conversions and shifts have no defined result.
-/

namespace EceLib.Rule

variable {F : Type} (ft : Target F)

def intMax : ℤ := 2147483647

def intMin : ℤ := -2147483648

/-- `to_int`, or `none` where the conversion is undefined. -/
def toInt (x : F) : Option ℤ :=
  if ft.isNaN x then some 0
  else if ft.isInf x ≠ 0 then some (intMax * ft.isInf x)
  else if intMin ≤ ft.trunc x ∧ ft.trunc x ≤ intMax then some (ft.trunc x)
  else none

/-- A bitwise operator on `int`. -/
def bitwise (f : BitVec 32 → BitVec 32 → BitVec 32) (a b : ℤ) : ℤ :=
  (f (BitVec.ofInt 32 a) (BitVec.ofInt 32 b)).toInt

def shiftLeft (a b : ℤ) : Option ℤ :=
  if 0 ≤ b ∧ b < 32 ∧ 0 ≤ a ∧ a * 2 ^ b.toNat ≤ intMax then some (a * 2 ^ b.toNat) else none

def shiftRight (a b : ℤ) : Option ℤ :=
  if 0 ≤ b ∧ b < 32 then some (a / 2 ^ b.toNat) else none

/-- `!(x)`, `x < y` and the like as a number. -/
def ofBool (b : Bool) : F := ft.ofInt (if b then 1 else 0)

/-- `n != 0` -/
def isTrue (n : F) : Bool := !ft.eq n (ft.ofInt 0)

/-- An operator on the values of its operands; `none` where `int` has no result. -/
def applyUnary : UnaryOp → F → Option F
  | .minus, x => some (ft.neg x)
  | .logicalNot, x => some (ofBool ft !isTrue ft x)
  | .bitwiseNot, x => (toInt ft x).map fun i => ft.ofInt (-i - 1)

/-- The operators that evaluate both operands and use their values only. -/
def applyBinary (op : BinaryOp) (x y : F) : Option F :=
  match op with
  | .power => some (ft.powf x y)
  | .multiply => some (ft.mul x y)
  | .divide => some (ft.div x y)
  | .remainder => some (ft.fmodf x y)
  | .plus => some (ft.add x y)
  | .minus => some (ft.sub x y)
  | .shl => do return ft.ofInt (← shiftLeft (← toInt ft x) (← toInt ft y))
  | .shr => do return ft.ofInt (← shiftRight (← toInt ft x) (← toInt ft y))
  | .lt => some (ofBool ft (ft.lt x y))
  | .le => some (ofBool ft (ft.le x y))
  | .gt => some (ofBool ft (ft.lt y x))
  | .ge => some (ofBool ft (ft.le y x))
  | .eq => some (ofBool ft (ft.eq x y))
  | .ne => some (ofBool ft !ft.eq x y)
  | .bitwiseAnd => do return ft.ofInt (bitwise (· &&& ·) (← toInt ft x) (← toInt ft y))
  | .bitwiseOr => do return ft.ofInt (bitwise (· ||| ·) (← toInt ft x) (← toInt ft y))
  | .bitwiseXor => do return ft.ofInt (bitwise (· ^^^ ·) (← toInt ft x) (← toInt ft y))
  | .logicalAnd | .logicalOr | .assign | .comma => none

/-- The variable with this name. -/
def VarList.get (vars : VarList F) (name : List Char) : Option F :=
  (vars.find? (·.1 == name)).map (·.2)

def VarList.set (vars : VarList F) (name : List Char) (n : F) : VarList F :=
  vars.map fun v => if v.1 == name then (name, n) else v

/-- `expr_eval`: the value and the variables.  A variable that is not in the
list has no value. -/
def exprEval : Expr F → VarList F → Option (F × VarList F)
  | .const value, vars => some (value, vars)
  | .var name, vars => (vars.get name).map (·, vars)
  | .unary op arg, vars => do
      let (x, vars) ← exprEval arg vars
      return (← applyUnary ft op x, vars)
  | .binary .logicalAnd a b, vars => do
      let (n, vars) ← exprEval a vars
      if isTrue ft n then
        let (n, vars) ← exprEval b vars
        return (if isTrue ft n then n else ft.ofInt 0, vars)
      else return (ft.ofInt 0, vars)
  | .binary .logicalOr a b, vars => do
      let (n, vars) ← exprEval a vars
      if isTrue ft n && !ft.isNaN n then return (n, vars)
      else
        let (n, vars) ← exprEval b vars
        return (if isTrue ft n then n else ft.ofInt 0, vars)
  | .binary .assign a b, vars => do
      let (n, vars) ← exprEval b vars
      match a with
      | .var name => return (n, vars.set name n)
      | _ => return (n, vars)
  | .binary .comma a b, vars => do
      let (_, vars) ← exprEval a vars
      exprEval b vars
  | .binary op a b, vars =>
      if ft.leftFirst op then do
        let (x, vars) ← exprEval a vars
        let (y, vars) ← exprEval b vars
        return (← applyBinary ft op x y, vars)
      else do
        let (y, vars) ← exprEval b vars
        let (x, vars) ← exprEval a vars
        return (← applyBinary ft op x y, vars)

/-! ## The order of evaluation -/

/-- The operators that evaluate both operands, in an order that is not
specified. -/
def BinaryOp.Unsequenced : BinaryOp → Bool
  | .logicalAnd | .logicalOr | .assign | .comma => false
  | _ => true

/-- Nothing is assigned to a variable. -/
def Expr.AssignFree : Expr F → Prop
  | .const _ | .var _ => True
  | .unary _ a => a.AssignFree
  | .binary op a b => op ≠ .assign ∧ a.AssignFree ∧ b.AssignFree

/-- Assignments are not below an operator that leaves the order open. -/
def Expr.Sequenced : Expr F → Prop
  | .const _ | .var _ => True
  | .unary _ a => a.Sequenced
  | .binary op a b =>
      if op.Unsequenced then a.AssignFree ∧ b.AssignFree else a.Sequenced ∧ b.Sequenced

instance decidableAssignFree : DecidablePred (Expr.AssignFree (F := F))
  | .const _ => .isTrue trivial
  | .var _ => .isTrue trivial
  | .unary _ a => decidableAssignFree a
  | .binary op a b =>
      have : Decidable a.AssignFree := decidableAssignFree a
      have : Decidable b.AssignFree := decidableAssignFree b
      inferInstanceAs (Decidable (op ≠ .assign ∧ a.AssignFree ∧ b.AssignFree))

variable {ft}

theorem exprEval_unsequenced {op : BinaryOp} (hop : op.Unsequenced = true) (a b : Expr F)
    (vars : VarList F) :
    exprEval ft (.binary op a b) vars =
      if ft.leftFirst op then
        (exprEval ft a vars).bind fun x => (exprEval ft b x.2).bind fun y =>
          (applyBinary ft op x.1 y.1).map (·, y.2)
      else
        (exprEval ft b vars).bind fun y => (exprEval ft a y.2).bind fun x =>
          (applyBinary ft op x.1 y.1).map (·, x.2) := by
  have hmap : ∀ (z : Option F) (vars : VarList F),
      (z.bind fun v => some (v, vars)) = z.map (·, vars) := fun z vars => by cases z <;> rfl
  cases op with
  | logicalAnd | logicalOr | assign | comma => cases hop
  | _ =>
      simp only [exprEval, ← hmap]
      rfl

theorem exprEval_unary (op : UnaryOp) (a : Expr F) (vars : VarList F) :
    exprEval ft (.unary op a) vars =
      (exprEval ft a vars).bind fun x => (applyUnary ft op x.1).map (·, x.2) := by
  rw [exprEval]
  refine bind_congr fun x => ?_
  obtain ⟨x, vars⟩ := x
  cases h : applyUnary ft op x <;> simp [h]

theorem exprEval_logicalAnd (a b : Expr F) (vars : VarList F) :
    exprEval ft (.binary .logicalAnd a b) vars =
      (exprEval ft a vars).bind fun x =>
        if isTrue ft x.1 then
          (exprEval ft b x.2).map fun y => (if isTrue ft y.1 then y.1 else ft.ofInt 0, y.2)
        else some (ft.ofInt 0, x.2) := by
  rw [exprEval]
  refine bind_congr fun x => ?_
  by_cases h : isTrue ft x.1
  · simp only [h, if_true]
    cases exprEval ft b x.2 <;> rfl
  · simp only [h]
    rfl

theorem exprEval_logicalOr (a b : Expr F) (vars : VarList F) :
    exprEval ft (.binary .logicalOr a b) vars =
      (exprEval ft a vars).bind fun x =>
        if isTrue ft x.1 && !ft.isNaN x.1 then some x
        else (exprEval ft b x.2).map fun y => (if isTrue ft y.1 then y.1 else ft.ofInt 0, y.2) := by
  rw [exprEval]
  refine bind_congr fun x => ?_
  by_cases h : (isTrue ft x.1 && !ft.isNaN x.1) = true
  · simp only [h, if_true]
    rfl
  · simp only [h]
    cases exprEval ft b x.2 <;> rfl

theorem exprEval_comma (a b : Expr F) (vars : VarList F) :
    exprEval ft (.binary .comma a b) vars =
      (exprEval ft a vars).bind fun x => exprEval ft b x.2 := rfl

theorem exprEval_assign (a b : Expr F) (vars : VarList F) :
    exprEval ft (.binary .assign a b) vars =
      (exprEval ft b vars).map fun y => match a with
        | .var name => (y.1, y.2.set name y.1)
        | _ => y := by
  rw [exprEval]
  cases exprEval ft b vars with
  | none => rfl
  | some y => cases a <;> rfl

/-- Without assignments the variables stay as they are. -/
theorem Expr.AssignFree.vars {e : Expr F} (he : e.AssignFree) {vars : VarList F}
    {r : F × VarList F} (h : exprEval ft e vars = some r) : r.2 = vars := by
  induction e generalizing vars r with
  | const value =>
      cases h
      rfl
  | var name =>
      obtain ⟨v, _, rfl⟩ := Option.map_eq_some_iff.mp h
      rfl
  | unary op a ih =>
      rw [exprEval_unary] at h
      obtain ⟨x, hx, hrest⟩ := Option.bind_eq_some_iff.mp h
      obtain ⟨v, _, rfl⟩ := Option.map_eq_some_iff.mp hrest
      have hvars : x.2 = vars := ih he hx
      exact hvars
  | binary op a b iha ihb =>
      obtain ⟨hop, ha, hb⟩ := he
      by_cases hun : op.Unsequenced = true
      · rw [exprEval_unsequenced hun] at h
        split at h
        · obtain ⟨x, hx, hrest⟩ := Option.bind_eq_some_iff.mp h
          obtain ⟨y, hy, hr⟩ := Option.bind_eq_some_iff.mp hrest
          obtain ⟨v, _, rfl⟩ := Option.map_eq_some_iff.mp hr
          exact (ihb hb hy).trans (iha ha hx)
        · obtain ⟨y, hy, hrest⟩ := Option.bind_eq_some_iff.mp h
          obtain ⟨x, hx, hr⟩ := Option.bind_eq_some_iff.mp hrest
          obtain ⟨v, _, rfl⟩ := Option.map_eq_some_iff.mp hr
          exact (iha ha hx).trans (ihb hb hy)
      · cases op with
        | assign => exact absurd rfl hop
        | comma =>
            rw [exprEval_comma] at h
            obtain ⟨x, hx, hy⟩ := Option.bind_eq_some_iff.mp h
            exact (ihb hb hy).trans (iha ha hx)
        | logicalAnd =>
            rw [exprEval_logicalAnd] at h
            obtain ⟨x, hx, hrest⟩ := Option.bind_eq_some_iff.mp h
            split at hrest
            · obtain ⟨y, hy, rfl⟩ := Option.map_eq_some_iff.mp hrest
              exact (ihb hb hy).trans (iha ha hx)
            · cases hrest
              have hvars : x.2 = vars := iha ha hx
              exact hvars
        | logicalOr =>
            rw [exprEval_logicalOr] at h
            obtain ⟨x, hx, hrest⟩ := Option.bind_eq_some_iff.mp h
            split at hrest
            · cases hrest
              exact iha ha hx
            · obtain ⟨y, hy, rfl⟩ := Option.map_eq_some_iff.mp hrest
              exact (ihb hb hy).trans (iha ha hx)
        | _ => exact absurd rfl hun

/-- Operands without assignments can be evaluated in any order. -/
theorem exprEval_of_assignFree {op : BinaryOp} (hop : op.Unsequenced = true) {a b : Expr F}
    (ha : a.AssignFree) (hb : b.AssignFree) (vars : VarList F) :
    exprEval ft (.binary op a b) vars =
      (exprEval ft a vars).bind fun x => (exprEval ft b vars).bind fun y =>
        (applyBinary ft op x.1 y.1).map (·, vars) := by
  rw [exprEval_unsequenced hop]
  cases hx : exprEval ft a vars with
  | none =>
      cases hy : exprEval ft b vars with
      | none => simp
      | some y => simp [hb.vars hy, hx]
  | some x =>
      cases hy : exprEval ft b vars with
      | none => simp [ha.vars hx, hy]
      | some y => simp [ha.vars hx, hb.vars hy, hx, hy]

theorem Expr.AssignFree.sequenced {e : Expr F} (he : e.AssignFree) : e.Sequenced := by
  induction e with
  | const _ | var _ => trivial
  | unary op a ih => exact ih he
  | binary op a b iha ihb =>
      obtain ⟨_, ha, hb⟩ := he
      rw [Expr.Sequenced]
      split
      · exact ⟨ha, hb⟩
      · exact ⟨iha ha, ihb hb⟩

/-- The order that the compiler chooses has no influence if no operator that
leaves it open has an assignment in an operand. -/
theorem exprEval_order {e : Expr F} (he : e.Sequenced) (leftFirst : BinaryOp → Bool)
    (vars : VarList F) :
    exprEval { ft with leftFirst := leftFirst } e vars = exprEval ft e vars := by
  induction e generalizing vars with
  | const _ | var _ => rfl
  | unary op a ih =>
      rw [exprEval_unary, exprEval_unary, ih he]
      rfl
  | binary op a b iha ihb =>
      rw [Expr.Sequenced] at he
      split at he
      · next hop =>
        rw [exprEval_of_assignFree hop he.1 he.2, exprEval_of_assignFree hop he.1 he.2,
          iha he.1.sequenced, ihb he.2.sequenced]
        rfl
      · next hop =>
        have ha := iha he.1
        have hb := ihb he.2
        cases op with
        | logicalAnd =>
            simp only [exprEval_logicalAnd, ha, hb]
            rfl
        | logicalOr =>
            simp only [exprEval_logicalOr, ha, hb]
            rfl
        | assign => simp only [exprEval_assign, hb]
        | comma => simp only [exprEval_comma, ha, hb]
        | _ => exact absurd rfl hop

/-- `a=b*(b+1)` with the left operands first. -/
theorem exprEval_order_product :
    exprEval { intTarget with leftFirst := fun _ => false }
        (.binary .assign (.var ['a'])
          (.binary .multiply (.var ['b']) (.binary .plus (.var ['b']) (.const 1))))
        [(['a'], 0), (['b'], 2)] = some (6, [(['a'], 6), (['b'], 2)]) := by
  have hsequenced : Expr.Sequenced (F := ℤ) (.binary .assign (.var ['a'])
      (.binary .multiply (.var ['b']) (.binary .plus (.var ['b']) (.const 1)))) := by
    simp [Expr.Sequenced, Expr.AssignFree, BinaryOp.Unsequenced]
  have horder : exprEval { intTarget with leftFirst := fun _ => false } _ _ =
      exprEval intTarget _ [(['a'], 0), (['b'], 2)] :=
    exprEval_order hsequenced (fun _ => false) _
  exact horder.trans rfl

end EceLib.Rule
