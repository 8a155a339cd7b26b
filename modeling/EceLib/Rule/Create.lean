import EceLib.Rule.Syntax

/-!
# Reading an expression

`expr_next_token` and `expr_create`.  The text is read token by token; what may
come next is kept in the flags.  The parser keeps values in `es` and the texts
of waiting operators and parentheses in `os`, both with the last entry first.
-/

namespace EceLib.Rule

/-! ## Tokens -/

/-- The bits of `flags`. -/
structure Flags where
  top : Bool
  topen : Bool
  tclose : Bool
  tnumber : Bool
  tword : Bool
  unary : Bool
  comma : Bool
  deriving DecidableEq, Repr

namespace Flags

def none : Flags := ⟨false, false, false, false, false, false, false⟩

/-- `EXPR_TDEFAULT` -/
def tdefault : Flags := { none with topen := true, tnumber := true, tword := true }

end Flags

/-- The loop over the characters of an operator: how many are read, and whether
they were an operator at some point. -/
def operatorScan (s : List Char) : List Char → ℕ → Bool → ℕ × Bool
  | [], i, found => (i, found)
  | c :: rest, i, found =>
      if isVarChr c || isSpace c || c == '(' || c == ')' then (i, found)
      else if exprOp (s.take (i + 1)) (some false) ≠ .unknown then operatorScan s rest (i + 1) true
      else if found then (i, found)
      else operatorScan s rest (i + 1) false

/-- `expr_next_token`: the length of the token and the new flags, or `none` for
the negative results. -/
def exprNextToken (s : List Char) (flags : Flags) : Option (ℕ × Flags) :=
  match s with
  | [] => some (0, flags)
  | c :: _ =>
      if c = '#' then some ((s.takeWhile (· != '\n')).length, flags)
      else if c = '\n' then
        let i := (s.takeWhile isSpace).length
        let flags :=
          if flags.top then
            if (s.drop i).head? = none ∨ (s.drop i).head? = some ')' then
              { flags with comma := false }
            else { Flags.none with tnumber := true, tword := true, topen := true, comma := true }
          else flags
        some (i, flags)
      else if isSpace c then
        some ((s.takeWhile fun c => isSpace c && c != '\n').length, flags)
      else if isDigit c then
        if !flags.tnumber then none
        else some ((s.takeWhile fun c => c == '.' || isDigit c).length,
          { Flags.none with top := true, tclose := true })
      else if isFirstVarChr c then
        if !flags.tword then none
        else some ((s.takeWhile isVarChr).length,
          { Flags.none with top := true, topen := true, tclose := true })
      else if c = '(' ∨ c = ')' then
        if c = '(' ∧ flags.topen then
          some (1,
            { Flags.none with tnumber := true, tword := true, topen := true, tclose := true })
        else if c = ')' ∧ flags.tclose then
          some (1, { Flags.none with top := true, tclose := true })
        else none
      else if !flags.top then
        if exprOp [c] (some true) = .unknown then none
        else
          some (1,
            { Flags.none with tnumber := true, tword := true, topen := true, unary := true })
      else
        let (i, found) := operatorScan s s 0 false
        if !found then none
        else some (i, { Flags.none with tnumber := true, tword := true, topen := true })

/-! ## The parser -/

/-- Why there is no expression: `goto cleanup`, or an entry taken from an empty
vector, or a function that is not in the table. -/
inductive Failure where
  | cleanup
  | underflow
  | nullFunc
  deriving DecidableEq, Repr

inductive Paren where
  | allowed
  | expected
  | forbidden
  deriving DecidableEq, Repr

variable {F : Type}

/-- `struct expr_arg` -/
structure Arg (F : Type) where
  oslen : ℕ
  eslen : ℕ
  args : List (Expr F)

structure Macro (F : Type) where
  name : List Char
  body : List (Expr F)

/-- The variables of `expr_create`; `id` is empty for `NULL`, and the last macro
comes first. -/
structure Create (F : Type) where
  es : List (Expr F)
  os : List (List Char)
  as : List (Arg F)
  macros : List (Macro F)
  vars : VarList F
  id : List Char
  paren : Paren

/-- `expr_bind` -/
def exprBind (s : List Char) (es : List (Expr F)) : Except Failure (List (Expr F)) :=
  match exprOp s none with
  | .unknown => .error .cleanup
  | .unary op =>
      match es with
      | arg :: es => .ok (.unary op arg :: es)
      | [] => .error .cleanup
  | .binary op =>
      match es with
      | b :: a :: es =>
          match op, a with
          | .assign, .var _ => .ok (.binary op a b :: es)
          | .assign, _ => .error .cleanup
          | _, _ => .ok (.binary op a b :: es)
      | _ => .error .cleanup

/-- The loop at a closing parenthesis. -/
def bindGroup (minlen : ℕ) :
    List (Expr F) → List (List Char) → Except Failure (List (Expr F) × List (List Char))
  | es, [] => .ok (es, [])
  | es, o :: os =>
      if os.length + 1 > minlen ∧ o.head? ≠ some '(' ∧ o.head? ≠ some '\x7b' then do
        let es ← exprBind o es
        bindGroup minlen es os
      else .ok (es, o :: os)

/-- The loop at an operator. -/
def bindOperator (tok : List Char) (st : Create F) :
    List (Expr F) → List (List Char) → Except Failure (Create F)
  | es, [] => .ok { st with es := es, os := [tok] }
  | es, o2 :: os =>
      if tok = [','] ∧ o2 = ['\x7b'] then
        match es, st.as with
        | e :: es, arg :: as =>
            .ok { st with
              es := es, os := o2 :: os, as := { arg with args := arg.args ++ [e] } :: as }
        | _, _ => .error .underflow
      else if exprOp o2 none ≠ .unknown ∧ exprPrec (exprOp tok none) (exprOp o2 none) then do
        let es ← exprBind o2 es
        bindOperator tok st es os
      else .ok { st with es := es, os := tok :: o2 :: os }

variable (ft : Target F)

/-- The name of a macro parameter; there is room for two characters. -/
def paramName (j : ℕ) : List Char := ('$' :: (toString (j + 1)).toList).take 2

/-- The assignments of the parameters, from the `j`th on, before `rest`. -/
def assignParams : ℕ → List (Expr F) → Expr F → Expr F
  | _, [], rest => rest
  | j, a :: args, rest =>
      .binary .comma (.binary .assign (.var (paramName j)) a) (assignParams (j + 1) args rest)

/-- The expressions of a macro in order. -/
def expandBody : List (Expr F) → Expr F
  | [] => .const (ft.ofInt 0)
  | [e] => e
  | e :: es => .binary .comma e (expandBody es)

/-- The variables with those of `n` macro parameters, from the `j`th on. -/
def declareParams : ℕ → ℕ → VarList F → VarList F
  | _, 0, vars => vars
  | j, n + 1, vars => declareParams (j + 1) n ((exprVar ft vars (paramName j)).getD vars)

/-- The end of a call of `$` or of a macro. -/
def endCall (st : Create F) (str : List Char) (args : List (Expr F)) : Except Failure (Create F) :=
  if str = ['$'] then
    match args with
    | .var name :: _ =>
        .ok { st with
          macros := if st.vars.any (·.1 == name) then ⟨name, args⟩ :: st.macros else st.macros
          es := .const (ft.ofInt 0) :: st.es }
    | _ => .error .cleanup
  else
    match st.macros.find? fun m => m.name == str with
    | some m =>
        .ok { st with
          vars := declareParams ft 0 args.length st.vars
          es := assignParams 0 args (expandBody ft m.body.tail) :: st.es }
    | none => .error .nullFunc

/-- The branch for a closing parenthesis. -/
def closeParen (st : Create F) : Except Failure (Create F) := do
  let minlen := match st.as with
    | [] => 0
    | arg :: _ => arg.oslen
  let (es, os) ← bindGroup minlen st.es st.os
  match os with
  | [] => .error .cleanup
  | str :: os =>
      if str = ['\x7b'] then
        match os, st.as with
        | str :: os, arg :: as =>
            if es.length > arg.eslen then
              match es with
              | e :: es => endCall ft { st with es := es, os := os, as := as } str (arg.args ++ [e])
              | [] => .error .underflow
            else endCall ft { st with es := es, os := os, as := as } str arg.args
        | _, _ => .error .underflow
      else .ok { st with es := es, os := os }

/-- The identifier before the token is a function or a variable. -/
def resolveId (tok : List Char) (st : Create F) : Except Failure (Create F) :=
  if st.id = [] then .ok st
  else if tok = ['('] then
    if st.id = ['$'] ∨ st.macros.any (·.name == st.id) then
      .ok { st with os := st.id :: st.os, paren := .expected, id := [] }
    else .error .cleanup
  else
    match exprVar ft st.vars st.id with
    | some vars =>
        .ok { st with es := .var st.id :: st.es, vars := vars, paren := .forbidden, id := [] }
    | none => .ok { st with id := [] }

/-- The branches of the loop of `expr_create`. -/
def pushToken (tok : List Char) (st : Create F) : Except Failure (Create F) :=
  if tok = ['('] then
    match st.paren with
    | .expected =>
        let os := ['\x7b'] :: st.os
        .ok { st with os := os, as := ⟨os.length, st.es.length, []⟩ :: st.as, paren := .allowed }
    | .allowed => .ok { st with os := ['('] :: st.os, paren := .allowed }
    | .forbidden => .error .cleanup
  else if st.paren = .expected then .error .cleanup
  else if tok = [')'] then do
    let st ← closeParen ft st
    .ok { st with paren := .forbidden }
  else
    match exprParseNumber ft tok with
    | some num => .ok { st with es := .const num :: st.es, paren := .forbidden }
    | none =>
        if exprOp tok none ≠ .unknown then do
          let st ← bindOperator tok st st.es st.os
          .ok { st with paren := .allowed }
        else if (tok.head?.map isDigit).getD true then .error .cleanup
        else .ok { st with id := tok, paren := .allowed }

/-- What the loop of `expr_create` does with a token. -/
def exprToken (tok : List Char) (st : Create F) : Except Failure (Create F) := do
  let st ← resolveId ft tok st
  pushToken ft tok st

/-- The token as the parser sees it: after a unary operator `flags` are those of
unary operators, also at a single space. -/
def rewriteToken (tok : List Char) (flags : Flags) : Option (List Char × Flags) :=
  if flags.unary ∧ tok.length = 1 then
    if tok = ['-'] ∨ tok = ['^'] ∨ tok = ['!'] then some (tok ++ ['u'], flags) else none
  else if tok.head? = some '\n' ∧ flags.comma then some ([','], { flags with comma := false })
  else some (tok, flags)

/-- The loop of `expr_create`. -/
def exprLoop : ℕ → List Char → Flags → Create F → Except Failure (Create F)
  | 0, _, _, st => .ok st
  | fuel + 1, s, flags, st =>
      match exprNextToken s flags with
      | none => .error .cleanup
      | some (0, _) => .ok st
      | some (n, flags) =>
          if s.head? = some '#' then exprLoop fuel (s.drop n) flags st
          else
            match rewriteToken (s.take n) flags with
            | none => .error .cleanup
            | some (tok, flags) =>
                if (tok.head?.map isSpace).getD false then exprLoop fuel (s.drop n) flags st
                else do
                  let st ← exprToken ft tok st
                  exprLoop fuel (s.drop n) flags st

/-- The loop over the waiting operators at the end of the text. -/
def bindRest : List (Expr F) → List (List Char) → Except Failure (List (Expr F))
  | es, [] => .ok es
  | es, rest :: os =>
      if rest = ['('] ∨ rest = [')'] then .error .cleanup
      else do
        let es ← exprBind rest es
        bindRest es os

/-- The values and the variables with the last identifier. -/
def lastId (st : Create F) : List (Expr F) × VarList F :=
  if st.id ≠ [] then (.var st.id :: st.es, (exprVar ft st.vars st.id).getD st.vars)
  else (st.es, st.vars)

/-- The end of `expr_create`: the expression and the variables. -/
def exprResult (st : Create F) : Except Failure (Expr F × VarList F) := do
  let es ← bindRest (lastId ft st).1 st.os
  match es with
  | [] => .ok (.const (ft.ofInt 0), (lastId ft st).2)
  | e :: _ => .ok (e, (lastId ft st).2)

/-- `expr_create` -/
def exprCreate (s : List Char) (vars : VarList F) : Except Failure (Expr F × VarList F) := do
  let st ← exprLoop ft s.length s .tdefault ⟨[], [], [], [], vars, [], .allowed⟩
  exprResult ft st

end EceLib.Rule
