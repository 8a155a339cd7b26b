import EceLib.Rule.Tokens

/-!
# The accepted rules

Without a call, `expr_create` is a lexer and the two-stack machine of operator
precedence.  Its vectors are simulated by that machine, so a text is accepted
precisely if its tokens are those of a tree that keeps the priorities.
-/

namespace EceLib.Rule

open Support Support.Precedence

variable {F : Type}

/-! ## The grammar -/

def opType : Op UnaryOp BinaryOp → ExprType
  | .unary op => .unary op
  | .binary op => .binary op

def opText : Op UnaryOp BinaryOp → List Char
  | .unary op => unaryText op
  | .binary op => binaryText op

def markText : Mark UnaryOp BinaryOp → List Char
  | .op o => opText o
  | .opening => ['(']

/-- The operators of `expr.h`.  A value can be assigned to a variable only. -/
def exprGrammar : Grammar (Expr F) UnaryOp BinaryOp where
  reduces b o := exprPrec (.binary b) (opType o)
  unary := .unary
  binary b l r :=
    match b, l with
    | .assign, .var _ => some (.binary b l r)
    | .assign, _ => none
    | _, _ => some (.binary b l r)

def orCleanup {α : Type} : Option α → Except Failure α
  | some a => .ok a
  | none => .error .cleanup

theorem orCleanup_bind {α β : Type} (x : Option α) (f : α → Option β) :
    orCleanup (x.bind f) = orCleanup x >>= fun a => orCleanup (f a) := by
  cases x <;> rfl

theorem exprOp_opText (o : Op UnaryOp BinaryOp) : exprOp (opText o) none = opType o := by
  cases o with
  | unary op => exact exprOp_unaryText op
  | binary op => exact exprOp_binaryText op

theorem opText_head_ne (o : Op UnaryOp BinaryOp) :
    (opText o).head? ≠ some '(' ∧ (opText o).head? ≠ some '\x7b' := by
  cases o with
  | unary op => cases op <;> decide
  | binary op => cases op <;> decide

theorem opType_ne_unknown (o : Op UnaryOp BinaryOp) : opType o ≠ .unknown := by
  cases o <;> simp [opType]

theorem exprGrammar_reduces (b : BinaryOp) (o : Op UnaryOp BinaryOp) :
    (exprGrammar : Grammar (Expr F) _ _).reduces b o = exprPrec (.binary b) (opType o) := rfl

theorem exprBind_opText (o : Op UnaryOp BinaryOp) (es : List (Expr F)) :
    exprBind (opText o) es = orCleanup (exprGrammar.bind o es) := by
  rw [exprBind, exprOp_opText]
  cases o with
  | unary op =>
      match es with
      | [] => rfl
      | arg :: es => rfl
  | binary op =>
      match es with
      | [] | [_] => rfl
      | b :: a :: es => cases op <;> cases a <;> rfl

/-! ## The loops over the operators -/

/-- A closing parenthesis outside a call. -/
theorem bindGroup_marks (es : List (Expr F)) (os : List (Mark UnaryOp BinaryOp)) :
    (∀ m, exprGrammar.close es os = some m →
      bindGroup 0 es (os.map markText) = .ok (m.es, ['('] :: m.os.map markText)) ∧
    (exprGrammar.close es os = none →
      bindGroup 0 es (os.map markText) = .error .cleanup ∨
        ∃ es', bindGroup 0 es (os.map markText) = .ok (es', [])) := by
  induction os generalizing es with
  | nil => exact ⟨by simp [Grammar.close], fun _ => Or.inr ⟨es, rfl⟩⟩
  | cons mark os ih =>
      cases mark with
      | opening =>
          constructor
          · intro m hm
            cases hm
            simp [bindGroup, markText]
          · intro h
            simp [Grammar.close] at h
      | op o =>
          have hstep : bindGroup 0 es ((Mark.op o :: os).map markText) =
              exprBind (opText o) es >>= fun es => bindGroup 0 es (os.map markText) := by
            simp [bindGroup, markText, opText_head_ne o]
          rw [hstep, exprBind_opText, Grammar.close]
          cases hbind : exprGrammar.bind o es with
          | none => exact ⟨by simp, fun _ => Or.inl rfl⟩
          | some es' => exact ih es'

/-- A unary operator binds nothing before it. -/
theorem bindOperator_unary (op : UnaryOp) (st : Create F) (es : List (Expr F))
    (os : List (Mark UnaryOp BinaryOp)) :
    bindOperator (unaryText op) st es (os.map markText) =
      .ok { st with es := es, os := unaryText op :: os.map markText } := by
  have hcomma : unaryText op ≠ [','] := by cases op <;> decide
  cases os with
  | nil => rfl
  | cons mark os =>
      cases mark with
      | opening =>
          have hparen : exprOp ['('] none = .unknown := by decide
          simp [bindOperator, hcomma, markText, hparen]
      | op o =>
          have hprec : exprPrec (.unary op) (opType o) = false := by
            cases o with
            | unary o => cases o <;> rfl
            | binary o => cases o <;> rfl
          simp [bindOperator, hcomma, markText, exprOp_unaryText, exprOp_opText, hprec]

theorem bindOperator_cons {tok o2 : List Char} (h : o2 ≠ ['\x7b']) (st : Create F)
    (es : List (Expr F)) (os : List (List Char)) :
    bindOperator tok st es (o2 :: os) =
      if exprOp o2 none ≠ .unknown ∧ exprPrec (exprOp tok none) (exprOp o2 none) then
        exprBind o2 es >>= fun es => bindOperator tok st es os
      else .ok { st with es := es, os := tok :: o2 :: os } := by
  rw [bindOperator.eq_def]
  simp only [h, and_false, if_false]

theorem bindOperator_binary (b : BinaryOp) (st : Create F) (es : List (Expr F))
    (os : List (Mark UnaryOp BinaryOp)) :
    bindOperator (binaryText b) st es (os.map markText) =
      orCleanup ((exprGrammar.reduce b es os).map fun m =>
        { st with es := m.es, os := binaryText b :: m.os.map markText }) := by
  induction os generalizing es with
  | nil => rfl
  | cons mark os ih =>
      cases mark with
      | opening =>
          have hparen : exprOp ['('] none = .unknown := by decide
          simp [bindOperator, markText, hparen, Grammar.reduce, orCleanup]
      | op o =>
          have hbrace : opText o ≠ ['\x7b'] := fun h => (opText_head_ne o).2 (by rw [h]; rfl)
          rw [List.map_cons, markText, bindOperator_cons hbrace, exprOp_binaryText, exprOp_opText,
            Grammar.reduce, exprGrammar_reduces]
          by_cases hreduces : exprPrec (.binary b) (opType o) = true
          · rw [if_pos ⟨opType_ne_unknown o, hreduces⟩, if_pos hreduces, exprBind_opText,
              Option.map_bind, orCleanup_bind]
            exact congrArg _ (funext ih)
          · rw [if_neg (by simp [hreduces]), if_neg hreduces]
            rfl

theorem bindRest_marks (es : List (Expr F)) (os : List (Mark UnaryOp BinaryOp)) :
    bindRest es (os.map markText) = orCleanup (exprGrammar.finish es os) := by
  induction os generalizing es with
  | nil => rfl
  | cons mark os ih =>
      cases mark with
      | opening => rfl
      | op o =>
          have hparen : opText o ≠ ['('] ∧ opText o ≠ [')'] := by
            cases o with
            | unary o => cases o <;> decide
            | binary o => cases o <;> decide
          rw [List.map_cons, markText, bindRest, if_neg (by simp [hparen]), exprBind_opText,
            Grammar.finish, orCleanup_bind]
          exact congrArg _ (funext ih)

/-! ## The simulation -/

variable (ft : Target F)

/-- The variables when the words of the tokens are looked up. -/
def declare (vars : VarList F) (ts : List (Tok F)) : VarList F :=
  ts.foldl (fun vars k => match k with
    | .atom (.var name) => (exprVar ft vars name).getD vars
    | _ => vars) vars

theorem declare_concat (vars : VarList F) (ts : List (Tok F)) (k : Tok F) :
    declare ft vars (ts ++ [k]) = match k with
      | .atom (.var name) => (exprVar ft (declare ft vars ts) name).getD (declare ft vars ts)
      | _ => declare ft vars ts := by
  rw [declare, List.foldl_append]
  rfl

/-- The vectors are those of the machine once the identifier is looked up. -/
structure Sim (vars : VarList F) (ts : List (Tok F)) (e : Expect) (st : Create F)
    (m : Machine (Expr F) UnaryOp BinaryOp) : Prop where
  as : st.as = []
  macros : st.macros = []
  os : st.os = m.os.map markText
  last : lastId ft st = (m.es, declare ft vars ts)
  name : st.id ≠ [] → st.id.head?.any isFirstVarChr
  idle : e ≠ .operator → st.id = [] ∧ st.paren = .allowed
  paren : st.paren ≠ .expected

variable {ft} {vars : VarList F} {ts : List (Tok F)} {e e' : Expect} {st : Create F}
  {m : Machine (Expr F) UnaryOp BinaryOp} {tok : List Char} {k : Tok F}

theorem exprVar_isSome (vars : VarList F) {name : List Char}
    (hname : name.head?.any isFirstVarChr) :
    (exprVar ft vars name).isSome := by
  cases name with
  | nil => simp at hname
  | cons c s =>
      have hc : isFirstVarChr c = true := by simpa using hname
      rw [exprVar]
      simp only [hc, Bool.not_true, Bool.false_eq_true, if_false]
      split <;> rfl

/-- At a token that is no call the identifier is a variable. -/
theorem Sim.resolve (h : Sim ft vars ts e st m) (htok : tok ≠ ['(']) :
    ∃ paren, paren ≠ .expected ∧ (st.id = [] → paren = st.paren) ∧
      resolveId ft tok st = .ok
        { st with es := m.es, vars := declare ft vars ts, id := [], paren := paren } := by
  have hlast := h.last
  unfold resolveId
  unfold lastId at hlast
  by_cases hid : st.id = []
  · rw [if_neg (by simpa using hid)] at hlast
    obtain ⟨hes, hvars⟩ := Prod.mk.inj hlast
    refine ⟨st.paren, h.paren, fun _ => rfl, ?_⟩
    rw [if_pos hid, ← hes, ← hvars, ← hid]
  · rw [if_pos hid] at hlast
    obtain ⟨hes, hvars⟩ := Prod.mk.inj hlast
    refine ⟨.forbidden, by simp, fun h => absurd h hid, ?_⟩
    obtain ⟨vars', hsome⟩ := Option.isSome_iff_exists.mp
      (exprVar_isSome st.vars (h.name hid))
    rw [hsome] at hvars
    rw [if_neg hid, if_neg htok, hsome, ← hes, ← hvars]
    rfl

/-- A token that is no call, with the identifier looked up. -/
theorem Sim.exprToken (h : Sim ft vars ts e st m) (htok : tok ≠ ['(']) :
    ∃ paren, paren ≠ .expected ∧ EceLib.Rule.exprToken ft tok st = pushToken ft tok
      { st with es := m.es, vars := declare ft vars ts, id := [], paren := paren } := by
  obtain ⟨paren, hparen, _, hresolve⟩ := h.resolve htok
  exact ⟨paren, hparen, by rw [EceLib.Rule.exprToken, hresolve]; rfl⟩

/-- What a token does to the machine it does to the vectors. -/
def Steps (ft : Target F) (vars : VarList F) (ts : List (Tok F)) (e : Expect) (st : Create F)
    (m : Machine (Expr F) UnaryOp BinaryOp) (tok : List Char) (k : Tok F) : Prop :=
  (exprGrammar.step m k = none ∧ exprToken ft tok st = .error .cleanup) ∨
    ∃ m' st', exprGrammar.step m k = some m' ∧ exprToken ft tok st = .ok st' ∧
      Sim ft vars (ts ++ [k]) e st' m' ∧ st'.id = wordOf k

theorem Sim.number (h : Sim ft vars ts e st m) {num : F}
    (htok : exprParseNumber ft tok = some num) :
    Steps ft vars ts .operator st m tok (.atom (.const num)) := by
  have hopen : tok ≠ ['('] := by
    rintro rfl
    have hnone : exprParseNumber ft ['('] = none :=
      exprParseNumber_eq_none ft (by decide) (by decide)
    simp [hnone] at htok
  have hclose : tok ≠ [')'] := by
    rintro rfl
    have hnone : exprParseNumber ft [')'] = none :=
      exprParseNumber_eq_none ft (by decide) (by decide)
    simp [hnone] at htok
  obtain ⟨paren, hparen, heq⟩ := h.exprToken hopen
  have hstep : EceLib.Rule.exprToken ft tok st = .ok
      { st with es := .const num :: m.es, vars := declare ft vars ts, id := [],
                paren := .forbidden } := by
    rw [heq, pushToken, if_neg hopen, if_neg hparen, if_neg hclose, htok]
  refine Or.inr ⟨_, _, rfl, hstep, ⟨h.as, h.macros, h.os, ?_, by simp, by simp, by simp⟩, ?_⟩
  · simp [lastId, declare_concat]
  · rfl

theorem Sim.word (h : Sim ft vars ts e st m)
    (htok : tok.head?.any isFirstVarChr) :
    Steps ft vars ts .operator st m tok (.atom (.var tok)) := by
  obtain ⟨c, s, rfl⟩ : ∃ c s, tok = c :: s := by
    cases tok with
    | nil => simp at htok
    | cons c s => exact ⟨c, s, rfl⟩
  have hc : isFirstVarChr c = true := by simpa using htok
  have hopen : c :: s ≠ ['('] := by
    rintro heq
    cases heq
    exact absurd hc (by decide)
  have hclose : c :: s ≠ [')'] := by
    rintro heq
    cases heq
    exact absurd hc (by decide)
  have hnum : exprParseNumber ft (c :: s) = none :=
    exprParseNumber_eq_none ft (ne_of_isFirstVarChr hc (by decide)) (isDigit_of_isFirstVarChr hc)
  have hop : exprOp (c :: s) none = .unknown := exprOp_eq_unknown (by simp [OpText, hc])
  obtain ⟨paren, hparen, heq⟩ := h.exprToken hopen
  have hstep : EceLib.Rule.exprToken ft (c :: s) st = .ok
      { st with es := m.es, vars := declare ft vars ts, id := c :: s, paren := .allowed } := by
    rw [heq, pushToken, if_neg hopen, if_neg hparen, if_neg hclose, hnum, hop]
    simp [isDigit_of_isFirstVarChr hc]
  refine Or.inr ⟨_, _, rfl, hstep, ⟨h.as, h.macros, h.os, ?_, fun _ => htok, by simp, by simp⟩, ?_⟩
  · simp [lastId, declare_concat]
  · rfl

theorem Sim.unary (h : Sim ft vars ts e st m) (op : UnaryOp) :
    Steps ft vars ts .operand st m (unaryText op) (.op (.unary op)) := by
  have hopen : unaryText op ≠ ['('] ∧ unaryText op ≠ [')'] := by cases op <;> decide
  have hnum : exprParseNumber ft (unaryText op) = none :=
    exprParseNumber_of_opText ft (by cases op <;> decide)
  obtain ⟨paren, hparen, heq⟩ := h.exprToken hopen.1
  have hstep : EceLib.Rule.exprToken ft (unaryText op) st = .ok
      { st with es := m.es, os := unaryText op :: st.os, vars := declare ft vars ts, id := [],
                paren := .allowed } := by
    rw [heq, pushToken, if_neg hopen.1, if_neg hparen, if_neg hopen.2, hnum, exprOp_unaryText]
    simp only [h.os, bindOperator_unary]
    rfl
  refine Or.inr ⟨_, _, rfl, hstep, ⟨h.as, h.macros, ?_, ?_, by simp, by simp, by simp⟩, ?_⟩
  · simp [h.os, markText, opText]
  · simp [lastId, declare_concat]
  · rfl

theorem Sim.opening (h : Sim ft vars ts e st m) (he : e ≠ .operator) :
    Steps ft vars ts .opened st m ['('] .opening := by
  obtain ⟨hid, hparen⟩ := h.idle he
  have hlast := h.last
  have hstep : EceLib.Rule.exprToken ft ['('] st = .ok
      { st with os := ['('] :: st.os, paren := .allowed } := by
    rw [EceLib.Rule.exprToken, resolveId, if_pos hid]
    change pushToken ft ['('] st = _
    rw [pushToken, if_pos rfl, hparen]
  refine Or.inr ⟨_, _, rfl, hstep, ⟨h.as, h.macros, ?_, ?_, ?_, by simp [hid], by simp⟩, ?_⟩
  · simp [h.os, markText]
  · simpa [lastId, declare_concat, hid] using hlast
  · simp [hid]
  · exact hid

theorem Sim.closing (h : Sim ft vars ts e st m) :
    Steps ft vars ts .operator st m [')'] .closing := by
  obtain ⟨paren, hparen, heq⟩ := h.exprToken (show [')'] ≠ ['('] by decide)
  obtain ⟨hsome, hnone⟩ := bindGroup_marks m.es m.os
  have hpush : EceLib.Rule.exprToken ft [')'] st =
      closeParen ft
        { st with es := m.es, vars := declare ft vars ts, id := [], paren := paren } >>= fun st =>
          .ok { st with paren := .forbidden } := by
    rw [heq, pushToken, if_neg (by decide), if_neg hparen, if_pos rfl]
  cases hclose : exprGrammar.close m.es m.os with
  | none =>
      refine Or.inl ⟨hclose, ?_⟩
      rw [hpush, closeParen]
      rcases hnone hclose with herr | ⟨es', herr⟩
      · simp only [h.as, h.os, herr]
        rfl
      · simp only [h.as, h.os, herr]
        rfl
  | some m' =>
      have hstep : EceLib.Rule.exprToken ft [')'] st = .ok
          { st with es := m'.es, os := m'.os.map markText, vars := declare ft vars ts, id := [],
                    paren := .forbidden } := by
        rw [hpush, closeParen]
        simp only [h.as, h.os, hsome m' hclose]
        rfl
      refine Or.inr ⟨m', _, hclose, hstep, ⟨h.as, h.macros, rfl, ?_, by simp, by simp, by simp⟩, ?_⟩
      · simp [lastId, declare_concat]
      · rfl

theorem Sim.binary (h : Sim ft vars ts e st m) (op : BinaryOp) :
    Steps ft vars ts .operand st m (binaryText op) (.op (.binary op)) := by
  have hopen : binaryText op ≠ ['('] ∧ binaryText op ≠ [')'] := by cases op <;> decide
  have hnum : exprParseNumber ft (binaryText op) = none :=
    exprParseNumber_of_opText ft (by cases op <;> decide)
  obtain ⟨paren, hparen, heq⟩ := h.exprToken hopen.1
  have hpush : EceLib.Rule.exprToken ft (binaryText op) st =
      bindOperator (binaryText op)
        { st with es := m.es, vars := declare ft vars ts, id := [], paren := paren }
        m.es (m.os.map markText) >>= fun st => .ok { st with paren := .allowed } := by
    rw [heq, pushToken, if_neg hopen.1, if_neg hparen, if_neg hopen.2, hnum, exprOp_binaryText]
    simp only [h.os]
    rfl
  rw [bindOperator_binary] at hpush
  cases hreduce : exprGrammar.reduce op m.es m.os with
  | none =>
      rw [hreduce] at hpush
      exact Or.inl ⟨by simp [Grammar.step, hreduce], hpush⟩
  | some m' =>
      rw [hreduce] at hpush
      refine Or.inr ⟨{ m' with os := .op (.binary op) :: m'.os }, _,
        by simp [Grammar.step, hreduce], hpush,
        ⟨h.as, h.macros, rfl, ?_, by simp, by simp, by simp⟩, ?_⟩
      · simp [lastId, declare_concat]
      · rfl

/-- A word before a parenthesis must be `$`, as long as there is no macro. -/
theorem Sim.call (h : Sim ft vars ts e st m) (hid : st.id ≠ []) (hdollar : st.id ≠ ['$']) :
    EceLib.Rule.exprToken ft ['('] st = .error .cleanup := by
  rw [EceLib.Rule.exprToken, resolveId, if_neg hid, if_pos rfl, h.macros,
    if_neg (by simpa using hdollar)]
  rfl

theorem Sim.steps (h : Sim ft vars ts e st m) (hspelt : Spelt ft tok k)
    (hexpect : expect e k = some e') : Steps ft vars ts e' st m tok k := by
  match k with
  | .atom (.const num) =>
      obtain rfl : e' = .operator := by cases e <;> simp_all [expect]
      exact h.number hspelt
  | .atom (.var name) =>
      obtain ⟨rfl, hname⟩ := hspelt
      obtain rfl : e' = .operator := by cases e <;> simp_all [expect]
      exact h.word hname
  | .op (.unary op) =>
      obtain rfl : tok = unaryText op := hspelt
      obtain rfl : e' = .operand := by cases e <;> simp_all [expect]
      exact h.unary op
  | .op (.binary op) =>
      obtain rfl : tok = binaryText op := hspelt
      obtain rfl : e' = .operand := by cases e <;> simp_all [expect]
      exact h.binary op
  | .opening =>
      obtain rfl : tok = ['('] := hspelt
      have he : e ≠ .operator := by rintro rfl; cases hexpect
      obtain rfl : e' = .opened := by cases e <;> simp_all [expect]
      exact h.opening he
  | .closing =>
      obtain rfl : tok = [')'] := hspelt
      obtain rfl : e' = .operator := by cases e <;> simp_all [expect]
      exact h.closing

/-! ## The loop -/

/-- No word `$` before a parenthesis; `id` is the word before the tokens. -/
def NoCall : List Char → List (Tok F) → Prop
  | _, [] => True
  | id, .opening :: ts => id ≠ ['$'] ∧ NoCall [] ts
  | _, .atom (.var name) :: ts => NoCall name ts
  | _, _ :: ts => NoCall [] ts

theorem NoCall.tail {id : List Char} (h : NoCall id (k :: ts)) : NoCall (wordOf k) ts := by
  match k with
  | .opening => exact h.2
  | .atom (.var name) => exact h
  | .atom (.const _) | .atom (.unary _ _) | .atom (.binary _ _ _) | .op _ | .closing => exact h

/-- The machine cannot read the tokens in this order. -/
def Refused (e : Expect) (m : Machine (Expr F) UnaryOp BinaryOp) (us : List (Tok F)) : Prop :=
  run expect e us = none ∨ run exprGrammar.step m us = none

/-- One round of the loop: it ends, skips a blank token, or takes a token. -/
theorem exprLoop_cases (ft : Target F) {flags : Flags} {word : Bool} (fuel : ℕ) (s : List Char)
    (hfits : Fits flags word e) :
    (exprTokens ft (fuel + 1) s flags = none ∧
        ∀ st, exprLoop ft (fuel + 1) s flags st = .error .cleanup) ∨
      (exprTokens ft (fuel + 1) s flags = some [] ∧
        ∀ st, exprLoop ft (fuel + 1) s flags st = .ok st) ∨
      (∃ n flags', Fits flags' word e ∧
        exprTokens ft (fuel + 1) s flags = exprTokens ft fuel (s.drop n) flags' ∧
        ∀ st, exprLoop ft (fuel + 1) s flags st = exprLoop ft fuel (s.drop n) flags' st) ∨
      ∃ n flags' tok, (∀ k, classify ft tok = some k → Follows ft e word flags' tok k) ∧
        exprTokens ft (fuel + 1) s flags =
          ((classify ft tok).bind fun k => (exprTokens ft fuel (s.drop n) flags').map (k :: ·)) ∧
        ∀ st, exprLoop ft (fuel + 1) s flags st =
          exprToken ft tok st >>= exprLoop ft fuel (s.drop n) flags' := by
  cases s with
  | nil => exact Or.inr (Or.inl ⟨rfl, fun _ => rfl⟩)
  | cons c s =>
      simp only [exprTokens, exprLoop]
      cases hnext : exprNextToken (c :: s) flags with
      | none => exact Or.inl ⟨rfl, fun _ => rfl⟩
      | some next =>
          obtain ⟨n, flags'⟩ := next
          cases n with
          | zero => exact Or.inr (Or.inl ⟨rfl, fun _ => rfl⟩)
          | succ n =>
              by_cases hc : c = '#'
              · subst hc
                have hflags : flags' = flags := by
                  simp only [exprNextToken, if_true, Option.some.injEq, Prod.mk.injEq] at hnext
                  exact hnext.2.symm
                exact Or.inr (Or.inr (Or.inl ⟨n + 1, flags', hflags ▸ hfits, rfl, fun _ => rfl⟩))
              · have hhead : (c :: s).head? ≠ some '#' := by simpa using hc
                simp only [hhead, if_false]
                cases hre : rewriteToken ((c :: s).take (n + 1)) flags' with
                | none => exact Or.inl ⟨rfl, fun _ => rfl⟩
                | some re =>
                    obtain ⟨tok, flags''⟩ := re
                    rcases (lexed hfits hc hnext hre).2 with ⟨hspace, hfits'⟩ |
                      ⟨hspace, hfollows⟩
                    · simp only [hspace, if_true]
                      exact Or.inr (Or.inr (Or.inl ⟨n + 1, flags'', hfits', rfl, fun _ => rfl⟩))
                    · simp only [hspace, Bool.false_eq_true, if_false]
                      exact Or.inr (Or.inr (Or.inr ⟨n + 1, flags'', tok, hfollows, rfl,
                        fun _ => rfl⟩))

theorem exprLoop_sim {fuel : ℕ} {s : List Char} {flags : Flags} {word : Bool} {us : List (Tok F)}
    (hfits : Fits flags word e) (h : Sim ft vars ts e st m) (hword : word = true ↔ st.id ≠ [])
    (htokens : exprTokens ft fuel s flags = some us) (hcall : NoCall st.id us) :
    (exprLoop ft fuel s flags st = .error .cleanup ∧ Refused e m us) ∨
      ∃ st' e' m', exprLoop ft fuel s flags st = .ok st' ∧ run expect e us = some e' ∧
        run exprGrammar.step m us = some m' ∧ Sim ft vars (ts ++ us) e' st' m' := by
  induction fuel generalizing s flags word ts e st m us with
  | zero =>
      cases htokens
      exact Or.inr ⟨st, e, m, rfl, rfl, rfl, by simpa using h⟩
  | succ fuel ih =>
      rcases exprLoop_cases ft fuel s hfits with ⟨htok, _⟩ | ⟨htok, hloop⟩ |
        ⟨n, flags', hfits', htok, hloop⟩ | ⟨n, flags', tok, hfollows, htok, hloop⟩
      · rw [htok] at htokens
        cases htokens
      · rw [htok] at htokens
        cases htokens
        exact Or.inr ⟨st, e, m, hloop st, rfl, rfl, by simpa using h⟩
      · rw [htok] at htokens
        rw [hloop]
        exact ih hfits' h hword htokens hcall
      · rw [htok] at htokens
        obtain ⟨k, hk, hrest⟩ := Option.bind_eq_some_iff.mp htokens
        obtain ⟨us', hus', rfl⟩ := Option.map_eq_some_iff.mp hrest
        obtain ⟨hspelt, ⟨e₁, he₁, hfits'⟩ | ⟨rfl, rfl, rfl, _⟩⟩ := hfollows k hk
        · rw [hloop]
          rcases h.steps hspelt he₁ with ⟨hm, herr⟩ | ⟨m₁, st₁, hm, hok, hsim, hword'⟩
          · refine Or.inl ⟨by rw [herr]; rfl, Or.inr ?_⟩
            rw [run_cons, hm]
            rfl
          · have hcall' : NoCall st₁.id us' := hword' ▸ hcall.tail
            have hisWord : IsWord k = true ↔ st₁.id ≠ [] := by simp [IsWord, hword']
            rw [hok]
            rcases ih hfits' hsim hisWord hus' hcall' with ⟨herr, hrefused⟩ |
              ⟨st', e', m', hok', he', hm', hsim'⟩
            · refine Or.inl ⟨herr, ?_⟩
              unfold Refused
              rw [run_cons, run_cons, he₁, hm]
              exact hrefused
            · refine Or.inr ⟨st', e', m', hok', ?_, ?_, by simpa using hsim'⟩
              · rw [run_cons, he₁]
                exact he'
              · rw [run_cons, hm]
                exact hm'
        · -- a call
          obtain rfl : tok = ['('] := hspelt
          refine Or.inl ⟨?_, Or.inl rfl⟩
          rw [hloop, h.call (hword.mp rfl) hcall.1]
          rfl

/-- What is no token is no expression. -/
theorem exprToken_of_classify_none (h : classify ft tok = none) (st : Create F) :
    ∃ err, exprToken ft tok st = .error err := by
  have hopen : tok ≠ ['('] := by rintro rfl; cases h
  have hclose : tok ≠ [')'] := by rintro rfl; cases h
  rw [exprToken]
  cases resolveId ft tok st with
  | error err => exact ⟨err, rfl⟩
  | ok st =>
      change ∃ err, pushToken ft tok st = .error err
      rw [classify, if_neg hopen, if_neg hclose] at h
      rw [pushToken, if_neg hopen]
      split
      · exact ⟨_, rfl⟩
      · cases hnum : exprParseNumber ft tok with
        | some num => simp [hnum] at h
        | none =>
            cases hop : exprOp tok none with
            | unary op | binary op => simp [hnum, hop] at h
            | unknown =>
                simp only [hnum, hop] at h
                split at h
                · rename_i hdigit
                  simp [hdigit]
                · cases h

theorem exprLoop_of_tokens_none {fuel : ℕ} {s : List Char} {flags : Flags} {word : Bool}
    (hfits : Fits flags word e) (htokens : exprTokens ft fuel s flags = none) (st : Create F) :
    ∃ err, exprLoop ft fuel s flags st = .error err := by
  induction fuel generalizing s flags word e st with
  | zero => cases htokens
  | succ fuel ih =>
      rcases exprLoop_cases ft fuel s hfits with ⟨_, hloop⟩ | ⟨htok, _⟩ |
        ⟨n, flags', hfits', htok, hloop⟩ | ⟨n, flags', tok, hfollows, htok, hloop⟩
      · exact ⟨_, hloop st⟩
      · rw [htok] at htokens
        cases htokens
      · rw [htok] at htokens
        rw [hloop]
        exact ih hfits' htokens st
      · rw [htok] at htokens
        rw [hloop]
        cases hclass : classify ft tok with
        | none =>
            obtain ⟨err, herr⟩ := exprToken_of_classify_none hclass st
            exact ⟨err, by rw [herr]; rfl⟩
        | some k =>
            cases exprToken ft tok st with
            | error err => exact ⟨err, rfl⟩
            | ok st₁ =>
                have hrest : exprTokens ft fuel (s.drop n) flags' = none := by
                  simpa [hclass] using htokens
                obtain ⟨_, ⟨e₁, _, hfits'⟩ | ⟨_, _, _, hfits'⟩⟩ := hfollows k hclass
                · exact ih hfits' hrest st₁
                · exact ih hfits' hrest st₁

/-! ## The accepted texts -/

variable (ft)

/-- The tokens of a text. -/
def tokensOf (s : List Char) : Option (List (Tok F)) := exprTokens ft s.length s .tdefault

variable {ft}

theorem fits_tdefault : Fits .tdefault false .operand := rfl

theorem sim_start (vars : VarList F) :
    Sim ft vars [] .operand ⟨[], [], [], [], vars, [], .allowed⟩ ⟨[], []⟩ :=
  ⟨rfl, rfl, rfl, rfl, by simp, by simp, by simp⟩

/-- The end of `expr_create` after the loop. -/
theorem Sim.finish (h : Sim ft vars ts e st m) :
    exprResult ft st = orCleanup ((exprGrammar.finish m.es m.os).map fun es =>
      (es.headD (.const (ft.ofInt 0)), declare ft vars ts)) := by
  rw [exprResult, h.last, h.os, bindRest_marks]
  cases exprGrammar.finish m.es m.os with
  | none => rfl
  | some es => cases es <;> rfl

/-- The text is read as the machine reads its tokens. -/
theorem exprCreate_eq {s : List Char} (hts : tokensOf ft s = some ts) (hcall : NoCall [] ts) :
    exprCreate ft s vars = orCleanup ((run expect .operand ts).bind fun _ =>
      (exprGrammar.parse ts).map fun es =>
        (es.headD (.const (ft.ofInt 0)), declare ft vars ts)) := by
  rw [exprCreate, Grammar.parse]
  rcases exprLoop_sim fits_tdefault (sim_start vars) (by simp) hts hcall with
    ⟨herr, hrefused⟩ | ⟨st, e, m, hok, he, hm, hsim⟩
  · rw [herr]
    rcases hrefused with he | hm
    · rw [he]
      rfl
    · rw [hm]
      cases run expect .operand ts <;> rfl
  · rw [hok, he, hm]
    exact hsim.finish

/-- Without a call, a text is read precisely if its tokens are those of a tree
that keeps the priorities, and then the expression is the value of the tree; or
if there is nothing but parentheses. -/
theorem exprCreate_eq_ok_iff {s : List Char}
    (hcall : ∀ ts, tokensOf ft s = some ts → NoCall [] ts) {x : Expr F} {vars' : VarList F} :
    exprCreate ft s vars = .ok (x, vars') ↔
      ∃ ts, tokensOf ft s = some ts ∧ vars' = declare ft vars ts ∧
        ((∃ t, exprGrammar.WellPrec t ∧ t.tokens = ts ∧ exprGrammar.value t = some x) ∨
          Blank ts ∧ x = .const (ft.ofInt 0)) := by
  cases hts : tokensOf ft s with
  | none =>
      obtain ⟨err, herr⟩ := exprLoop_of_tokens_none fits_tdefault hts
        ⟨[], [], [], [], vars, [], .allowed⟩
      rw [exprCreate, herr]
      simp only [reduceCtorEq, false_and, exists_false, iff_false]
      intro h
      cases h
  | some ts =>
      rw [exprCreate_eq hts (hcall ts hts)]
      simp only [Option.some.injEq, exists_eq_left']
      constructor
      · intro h
        cases he : run expect .operand ts with
        | none => simp [he, orCleanup] at h
        | some e =>
            rw [he, Option.bind_some] at h
            cases hparse : exprGrammar.parse ts with
            | none => simp [hparse, orCleanup] at h
            | some es =>
                rw [hparse] at h
                obtain ⟨rfl, rfl⟩ := Prod.mk.inj (Except.ok.inj h)
                refine ⟨rfl, ?_⟩
                rcases (Grammar.parse_eq_some_iff ⟨e, he⟩).mp hparse with
                  ⟨t, a, ht, htokens, hval, rfl⟩ | ⟨hblank, rfl⟩
                · exact Or.inl ⟨t, ht, htokens, hval⟩
                · exact Or.inr ⟨hblank, rfl⟩
      · rintro ⟨rfl, ⟨t, ht, rfl, hval⟩ | ⟨hblank, rfl⟩⟩
        · rw [run_expect_tokens (by simp), Grammar.parse_tokens _ ht hval]
          rfl
        · obtain ⟨e, he⟩ := hblank.alternates
          rw [he, (Grammar.parse_eq_some_iff ⟨e, he⟩).mpr (Or.inr ⟨hblank, rfl⟩)]
          rfl

instance decidableNoCall : ∀ (id : List Char) (ts : List (Tok F)), Decidable (NoCall id ts)
  | _, [] => .isTrue trivial
  | id, .opening :: ts =>
      have : Decidable (NoCall [] ts) := decidableNoCall [] ts
      inferInstanceAs (Decidable (id ≠ ['$'] ∧ NoCall [] ts))
  | _, .atom (.var name) :: ts => decidableNoCall name ts
  | _, .atom (.const _) :: ts => decidableNoCall [] ts
  | _, .atom (.unary _ _) :: ts => decidableNoCall [] ts
  | _, .atom (.binary _ _ _) :: ts => decidableNoCall [] ts
  | _, .op _ :: ts => decidableNoCall [] ts
  | _, .closing :: ts => decidableNoCall [] ts

/-- A sum in parentheses. -/
theorem exprCreate_eq_ok_iff_sum :
    exprCreate intTarget ['(', 'a', '+', '2', ')', '*', '3'] [] =
        .ok (.binary .multiply (.binary .plus (.var ['a']) (.const 2)) (.const 3), [(['a'], 0)]) ↔
      ∃ ts, tokensOf intTarget ['(', 'a', '+', '2', ')', '*', '3'] = some ts ∧
        [(['a'], 0)] = declare intTarget [] ts ∧
        ((∃ t, exprGrammar.WellPrec t ∧ t.tokens = ts ∧ exprGrammar.value t =
          some (.binary .multiply (.binary .plus (.var ['a']) (.const 2)) (.const 3))) ∨
          Blank ts ∧ Expr.binary .multiply (.binary .plus (.var ['a']) (.const 2)) (.const 3) =
            .const (0 : ℤ)) :=
  exprCreate_eq_ok_iff (F := ℤ) fun ts hts => by
    have hcall : (tokensOf intTarget ['(', 'a', '+', '2', ')', '*', '3']).any fun ts =>
        decide (NoCall [] ts) := by decide +kernel
    rw [hts] at hcall
    simpa using hcall

end EceLib.Rule
