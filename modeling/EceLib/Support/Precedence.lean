import Mathlib.Data.List.Basic
import EceLib.Support.Run

/-!
# Operator precedence parsing

The two-stack machine reads operands, unary and binary operators and groups.  It
keeps the values read and the operators that wait for an operand; a binary
operator first binds those on top of the stack that it `reduces`.  Which
operator reduces which is a parameter, so priorities and associativity do not
occur here: a source tree is well formed when every operator in it stands where
this relation puts it, and the machine accepts precisely the tokens of such
trees.
-/

namespace EceLib.Support.Precedence

variable {A P B : Type*}

/-- Operators that wait for an operand. -/
inductive Op (P B : Type*) where
  | unary (p : P)
  | binary (b : B)
  deriving DecidableEq

inductive Token (A P B : Type*) where
  | atom (a : A)
  | op (o : Op P B)
  | opening
  | closing
  deriving DecidableEq

inductive Mark (P B : Type*) where
  | op (o : Op P B)
  | opening
  deriving DecidableEq

/-- `binary` may refuse its operands. -/
structure Grammar (A P B : Type*) where
  reduces : B → Op P B → Bool
  unary : P → A → A
  binary : B → A → A → Option A

structure Machine (A P B : Type*) where
  es : List A
  os : List (Mark P B)

namespace Grammar

variable (g : Grammar A P B)

/-- An operator takes its operands from the values. -/
def bind : Op P B → List A → Option (List A)
  | .unary p, a :: es => some (g.unary p a :: es)
  | .binary b, r :: l :: es => (g.binary b l r).map (· :: es)
  | _, _ => none

/-- Bind the operators that `b` reduces. -/
def reduce (b : B) : List A → List (Mark P B) → Option (Machine A P B)
  | es, .op o :: os =>
      if g.reduces b o then (g.bind o es).bind fun es => reduce b es os
      else some ⟨es, .op o :: os⟩
  | es, .opening :: os => some ⟨es, .opening :: os⟩
  | es, [] => some ⟨es, []⟩

/-- Bind the operators of a group and end it. -/
def close : List A → List (Mark P B) → Option (Machine A P B)
  | es, .op o :: os => (g.bind o es).bind fun es => close es os
  | es, .opening :: os => some ⟨es, os⟩
  | _, [] => none

/-- Bind all operators; no group may be left. -/
def finish : List A → List (Mark P B) → Option (List A)
  | es, .op o :: os => (g.bind o es).bind fun es => finish es os
  | _, .opening :: _ => none
  | es, [] => some es

def step (m : Machine A P B) : Token A P B → Option (Machine A P B)
  | .atom a => some { m with es := a :: m.es }
  | .op (.unary p) => some { m with os := .op (.unary p) :: m.os }
  | .op (.binary b) =>
      (g.reduce b m.es m.os).map fun m => { m with os := .op (.binary b) :: m.os }
  | .opening => some { m with os := .opening :: m.os }
  | .closing => g.close m.es m.os

/-- The values that are left when all tokens are read. -/
def parse (ts : List (Token A P B)) : Option (List A) :=
  (run g.step ⟨[], []⟩ ts).bind fun m => g.finish m.es m.os

/-- `b` binds nothing on top of the operators. -/
def Stops (b : B) (os : List (Mark P B)) : Prop :=
  ∀ o, os.head? = some (.op o) → g.reduces b o = false

theorem stops_opening (b : B) (os : List (Mark P B)) : g.Stops b (.opening :: os) := by
  intro o ho
  simp at ho

theorem stops_nil (b : B) : g.Stops b [] := by
  intro o ho
  simp at ho

theorem stops_op {b : B} {o : Op P B} {os : List (Mark P B)} :
    g.Stops b (.op o :: os) ↔ g.reduces b o = false := by
  simp [Stops]

theorem reduce_of_stops {b : B} {os : List (Mark P B)} (h : g.Stops b os) (es : List A) :
    g.reduce b es os = some ⟨es, os⟩ := by
  cases os with
  | nil => rfl
  | cons m os =>
      cases m with
      | opening => rfl
      | op o => simp [reduce, g.stops_op.mp h]

/-! ## Source trees -/

end Grammar

/-- Expressions with their groups as written. -/
inductive Source (A P B : Type*) where
  | atom (a : A)
  | group (t : Source A P B)
  | unary (p : P) (t : Source A P B)
  | binary (b : B) (l r : Source A P B)
  deriving DecidableEq

namespace Source

def tokens : Source A P B → List (Token A P B)
  | atom a => [.atom a]
  | group t => .opening :: (t.tokens ++ [.closing])
  | unary p t => .op (.unary p) :: t.tokens
  | binary b l r => l.tokens ++ .op (.binary b) :: r.tokens

/-- The binary operators that are read while the tree has no operator to its
left, outermost first. -/
def leftSpine : Source A P B → List B
  | binary b l _ => b :: l.leftSpine
  | _ => []

/-- The operators that wait when the tree is read, innermost first. -/
def rightSpine : Source A P B → List (Op P B)
  | unary p t => t.rightSpine ++ [.unary p]
  | binary b _ r => r.rightSpine ++ [.binary b]
  | _ => []

end Source

namespace Grammar

variable (g : Grammar A P B)

/-- The value of the tree, if no operator refuses its operands. -/
def value : Source A P B → Option A
  | .atom a => some a
  | .group t => value t
  | .unary p t => (value t).map (g.unary p)
  | .binary b l r => (value l).bind fun a => (value r).bind fun a' => g.binary b a a'

/-- Operands stand where the operators take them: a binary operator binds all of
its left operand, and nothing in an operand binds an operator before it. -/
def WellPrec : Source A P B → Prop
  | .atom _ => True
  | .group t => WellPrec t
  | .unary p t => WellPrec t ∧ ∀ b ∈ t.leftSpine, g.reduces b (.unary p) = false
  | .binary b l r =>
      WellPrec l ∧ WellPrec r ∧ (∀ o ∈ l.rightSpine, g.reduces b o = true) ∧
        ∀ b' ∈ r.leftSpine, g.reduces b' (.binary b) = false

instance decidableWellPrec : DecidablePred g.WellPrec
  | .atom _ => .isTrue trivial
  | .group t => decidableWellPrec t
  | .unary p t =>
      have : Decidable (g.WellPrec t) := decidableWellPrec t
      inferInstanceAs (Decidable (g.WellPrec t ∧ ∀ b ∈ t.leftSpine, g.reduces b (.unary p) = false))
  | .binary b l r =>
      have : Decidable (g.WellPrec l) := decidableWellPrec l
      have : Decidable (g.WellPrec r) := decidableWellPrec r
      inferInstanceAs (Decidable (g.WellPrec l ∧ g.WellPrec r ∧
        (∀ o ∈ l.rightSpine, g.reduces b o = true) ∧
          ∀ b' ∈ r.leftSpine, g.reduces b' (.binary b) = false))

/-- Bind the operators in order. -/
def bindAll : List (Op P B) → List A → Option (List A)
  | [], es => some es
  | o :: ops, es => (g.bind o es).bind fun es => bindAll ops es

theorem bindAll_append (ops ops' : List (Op P B)) (es : List A) :
    g.bindAll (ops ++ ops') es = (g.bindAll ops es).bind (g.bindAll ops') := by
  induction ops generalizing es with
  | nil => rfl
  | cons o ops ih =>
      rw [List.cons_append, bindAll, bindAll, Option.bind_assoc]
      exact congrArg _ (funext ih)

theorem reduce_append {b : B} {ops : List (Op P B)} (hops : ∀ o ∈ ops, g.reduces b o = true)
    (es : List A) (os : List (Mark P B)) :
    g.reduce b es (ops.map .op ++ os) =
      (g.bindAll ops es).bind fun es => g.reduce b es os := by
  induction ops generalizing es with
  | nil => rfl
  | cons o ops ih =>
      rw [List.map_cons, List.cons_append, reduce, if_pos (hops o (by simp)), bindAll,
        Option.bind_assoc]
      exact congrArg _ (funext fun es => ih (fun o ho => hops o (by simp [ho])) es)

theorem close_append (ops : List (Op P B)) (es : List A) (os : List (Mark P B)) :
    g.close es (ops.map .op ++ .opening :: os) =
      (g.bindAll ops es).bind fun es => some ⟨es, os⟩ := by
  induction ops generalizing es with
  | nil => rfl
  | cons o ops ih =>
      rw [List.map_cons, List.cons_append, close, bindAll, Option.bind_assoc]
      exact congrArg _ (funext ih)

theorem finish_map (ops : List (Op P B)) (es : List A) :
    g.finish es (ops.map .op) = g.bindAll ops es := by
  induction ops generalizing es with
  | nil => rfl
  | cons o ops ih =>
      rw [List.map_cons, finish, bindAll]
      exact congrArg _ (funext ih)

/-! ## The tokens of a tree -/

/-- When the tokens of a tree are read, the operators of its right spine are
left, and binding them gives its value. -/
theorem run_tokens {t : Source A P B} (ht : g.WellPrec t) {a : A} (ha : g.value t = some a)
    (es : List A) (os : List (Mark P B)) (hos : ∀ b ∈ t.leftSpine, g.Stops b os) :
    ∃ vs, run g.step ⟨es, os⟩ t.tokens = some ⟨vs, t.rightSpine.map .op ++ os⟩ ∧
      g.bindAll t.rightSpine vs = some (a :: es) := by
  induction t generalizing a es os with
  | atom a' =>
      obtain rfl : a' = a := Option.some.inj ha
      exact ⟨a' :: es, rfl, rfl⟩
  | group t ih =>
      obtain ⟨vs, hrun, hbind⟩ := ih ht ha es (.opening :: os)
        fun b _ => g.stops_opening b os
      refine ⟨a :: es, ?_, rfl⟩
      rw [Source.tokens, run_cons, step, Option.bind_some, run_append, hrun, Option.bind_some,
        run_cons, step, close_append, hbind]
      rfl
  | unary p t ih =>
      obtain ⟨a', ha', rfl⟩ := Option.map_eq_some_iff.mp ha
      obtain ⟨vs, hrun, hbind⟩ := ih ht.1 ha' es (.op (.unary p) :: os)
        fun b hb => g.stops_op.mpr (ht.2 b hb)
      refine ⟨vs, ?_, ?_⟩
      · rw [Source.tokens, run_cons, step, Option.bind_some, hrun]
        simp [Source.rightSpine]
      · rw [Source.rightSpine, bindAll_append, hbind]
        rfl
  | binary b l r ihl ihr =>
      obtain ⟨al, hal, har⟩ := Option.bind_eq_some_iff.mp ha
      obtain ⟨ar, har, hb⟩ := Option.bind_eq_some_iff.mp har
      obtain ⟨hl, hr, hleft, hright⟩ := ht
      obtain ⟨vs, hrun, hbind⟩ := ihl hl hal es os
        fun b' hb' => hos b' (by simp [Source.leftSpine, hb'])
      obtain ⟨ws, hrun', hbind'⟩ := ihr hr har (al :: es) (.op (.binary b) :: os)
        fun b' hb' => g.stops_op.mpr (hright b' hb')
      have hstop : g.Stops b os := hos b (by simp [Source.leftSpine])
      refine ⟨ws, ?_, ?_⟩
      · rw [Source.tokens, run_append, hrun, Option.bind_some, run_cons, step,
          g.reduce_append hleft, hbind, Option.bind_some, g.reduce_of_stops hstop]
        simpa [Source.rightSpine] using hrun'
      · rw [Source.rightSpine, bindAll_append, hbind', Option.bind_some]
        simp [bindAll, bind, hb]

theorem parse_tokens {t : Source A P B} (ht : g.WellPrec t) {a : A} (ha : g.value t = some a) :
    g.parse t.tokens = some [a] := by
  obtain ⟨vs, hrun, hbind⟩ := g.run_tokens ht ha [] [] fun b _ => g.stops_nil b
  rw [parse, hrun, Option.bind_some, List.append_nil, finish_map, hbind]

/-! ## The trees of the tokens -/

/-- The tokens `ts` are read up to an operand: their operators and groups wait
on `os`, their left operands are the values. -/
inductive Waiting : List (Token A P B) → List A → List (Mark P B) → Prop where
  | nil : Waiting [] [] []
  | opening {ts es os} : Waiting ts es os → Waiting (ts ++ [.opening]) es (.opening :: os)
  | unary {ts es os} (p : P) : Waiting ts es os →
      Waiting (ts ++ [.op (.unary p)]) es (.op (.unary p) :: os)
  | binary {ts es os} (b : B) {l : Source A P B} {a : A} : Waiting ts es os → g.WellPrec l →
      g.value l = some a → (∀ o ∈ l.rightSpine, g.reduces b o = true) →
      (∀ b' ∈ b :: l.leftSpine, g.Stops b' os) →
      Waiting (ts ++ l.tokens ++ [.op (.binary b)]) (a :: es) (.op (.binary b) :: os)

/-- The operand after the waiting operators is read as well; it is `t` so far. -/
def Read (t : Source A P B) (ts : List (Token A P B)) (es : List A) (os : List (Mark P B)) :
    Prop :=
  ∃ ts' a es', g.Waiting ts' es' os ∧ g.WellPrec t ∧ g.value t = some a ∧
    (∀ b ∈ t.leftSpine, g.Stops b os) ∧ ts = ts' ++ t.tokens ∧ es = a :: es'

variable {g} {t : Source A P B} {ts : List (Token A P B)} {es : List A} {os : List (Mark P B)}

/-- The operator on top takes what is read as its operand. -/
theorem Read.bind {o : Op P B} {es' : List A} (h : g.Read t ts es (.op o :: os))
    (hbind : g.bind o es = some es') :
    ∃ t', g.Read t' ts es' os ∧ t'.rightSpine = t.rightSpine ++ [o] := by
  obtain ⟨ts₀, a, es₀, hwait, ht, hval, hstops, rfl, rfl⟩ := h
  cases hwait with
  | unary p hwait =>
      cases hbind
      refine ⟨.unary p t, ⟨_, g.unary p a, es₀, hwait, ⟨ht, ?_⟩, ?_, ?_, ?_, rfl⟩, rfl⟩
      · exact fun b hb => g.stops_op.mp (hstops b hb)
      · simp [value, hval]
      · simp [Source.leftSpine]
      · simp [Source.tokens]
  | @binary ts₁ es₁ _ b l al hwait hl hal hleft hunder =>
      obtain ⟨v, hv, rfl⟩ := Option.map_eq_some_iff.mp hbind
      refine ⟨.binary b l t, ⟨ts₁, v, es₁, hwait, ⟨hl, ht, hleft, ?_⟩, ?_, ?_, ?_, rfl⟩, rfl⟩
      · exact fun b' hb' => g.stops_op.mp (hstops b' hb')
      · simp [value, hal, hval, hv]
      · exact hunder
      · simp [Source.tokens]

theorem Read.reduce {b : B} {m : Machine A P B} (h : g.Read t ts es os)
    (hright : ∀ o ∈ t.rightSpine, g.reduces b o = true)
    (hreduce : g.reduce b es os = some m) :
    ∃ t', g.Read t' ts m.es m.os ∧ (∀ o ∈ t'.rightSpine, g.reduces b o = true) ∧
      g.Stops b m.os := by
  induction os generalizing t es with
  | nil =>
      cases hreduce
      exact ⟨t, h, hright, g.stops_nil b⟩
  | cons mark os ih =>
      cases mark with
      | opening =>
          cases hreduce
          exact ⟨t, h, hright, g.stops_opening b os⟩
      | op o =>
          rw [Grammar.reduce] at hreduce
          split at hreduce
          · rename_i ho
            obtain ⟨es', hbind, hrest⟩ := Option.bind_eq_some_iff.mp hreduce
            obtain ⟨t', ht', hspine⟩ := h.bind hbind
            refine ih ht' ?_ hrest
            intro o' ho'
            rw [hspine, List.mem_append, List.mem_singleton] at ho'
            rcases ho' with ho' | rfl
            · exact hright o' ho'
            · exact ho
          · rename_i ho
            cases hreduce
            exact ⟨t, h, hright, g.stops_op.mpr (by simpa using ho)⟩

theorem Read.close {m : Machine A P B} (h : g.Read t ts es os)
    (hclose : g.close es os = some m) :
    ∃ t', g.Read (.group t') (ts ++ [.closing]) m.es m.os := by
  induction os generalizing t es with
  | nil => cases hclose
  | cons mark os ih =>
      cases mark with
      | opening =>
          cases hclose
          obtain ⟨ts', a, es', hwait, ht, hval, _, rfl, rfl⟩ := h
          cases hwait with
          | opening hwait =>
              exact ⟨t, _, a, es', hwait, ht, hval, by simp [Source.leftSpine],
                by simp [Source.tokens], rfl⟩
      | op o =>
          obtain ⟨es', hbind, hrest⟩ := Option.bind_eq_some_iff.mp hclose
          obtain ⟨t', ht', _⟩ := h.bind hbind
          exact ih ht' hrest

theorem Read.finish {es' : List A} (h : g.Read t ts es os) (hfinish : g.finish es os = some es') :
    ∃ t' a, g.WellPrec t' ∧ t'.tokens = ts ∧ g.value t' = some a ∧ es' = [a] := by
  induction os generalizing t es with
  | nil =>
      cases hfinish
      obtain ⟨ts', a, es', hwait, ht, hval, _, rfl, rfl⟩ := h
      cases hwait
      exact ⟨t, a, ht, rfl, hval, rfl⟩
  | cons mark os ih =>
      cases mark with
      | opening => cases hfinish
      | op o =>
          obtain ⟨es₁, hbind, hrest⟩ := Option.bind_eq_some_iff.mp hfinish
          obtain ⟨t', ht', _⟩ := h.bind hbind
          exact ih ht' hrest

/-! ## The number of values -/

/-- The binary operators that wait. -/
def pending : List (Mark P B) → ℕ
  | .op (.binary _) :: os => pending os + 1
  | _ :: os => pending os
  | [] => 0

theorem bind_length {o : Op P B} {es' : List A} (os : List (Mark P B))
    (h : g.bind o es = some es') :
    es' ≠ [] ∧ es.length + pending os = es'.length + pending (.op o :: os) := by
  cases o with
  | unary p =>
      match es with
      | [] => cases h
      | a :: es =>
          cases h
          exact ⟨by simp, by simp [pending]⟩
  | binary b =>
      match es with
      | [] | [_] => cases h
      | r :: l :: es =>
          obtain ⟨v, _, rfl⟩ := Option.map_eq_some_iff.mp h
          exact ⟨by simp, by simp [pending]; omega⟩

/-- Something is read beside groups: a value, or an operator that will give one. -/
def Busy (es : List A) (os : List (Mark P B)) : Prop := es ≠ [] ∨ ∃ o, .op o ∈ os

theorem reduce_length {b : B} {m : Machine A P B} (h : g.reduce b es os = some m) :
    es.length + pending m.os = m.es.length + pending os := by
  induction os generalizing es with
  | nil =>
      cases h
      rfl
  | cons mark os ih =>
      cases mark with
      | opening =>
          cases h
          rfl
      | op o =>
          rw [reduce] at h
          split at h
          · obtain ⟨es', hbind, hrest⟩ := Option.bind_eq_some_iff.mp h
            have hlen := (bind_length os hbind).2
            have := ih hrest
            omega
          · cases h
            rfl

theorem close_length {m : Machine A P B} (h : g.close es os = some m) :
    es.length + pending m.os = m.es.length + pending os ∧ (Busy es os → Busy m.es m.os) := by
  induction os generalizing es with
  | nil => cases h
  | cons mark os ih =>
      cases mark with
      | opening =>
          cases h
          exact ⟨rfl, by simp [Busy]⟩
      | op o =>
          obtain ⟨es', hbind, hrest⟩ := Option.bind_eq_some_iff.mp h
          obtain ⟨hne, hlen⟩ := bind_length os hbind
          obtain ⟨hlen', hbusy⟩ := ih hrest
          exact ⟨by omega, fun _ => hbusy (Or.inl hne)⟩

theorem finish_length {es' : List A} (h : g.finish es os = some es') :
    es.length = es'.length + pending os ∧ (Busy es os → es' ≠ []) := by
  induction os generalizing es with
  | nil =>
      cases h
      exact ⟨rfl, by simp [Busy]⟩
  | cons mark os ih =>
      cases mark with
      | opening => cases h
      | op o =>
          obtain ⟨es₁, hbind, hrest⟩ := Option.bind_eq_some_iff.mp h
          obtain ⟨hne, hlen⟩ := bind_length os hbind
          obtain ⟨hlen', hbusy⟩ := ih hrest
          exact ⟨by omega, fun _ => hbusy (Or.inl hne)⟩

end Grammar

/-! ## The accepted texts -/

/-- What may come next: an operand; an operand or the end of a group just opened;
or an operator or the end of a group. -/
inductive Expect where
  | operand
  | opened
  | operator
  deriving DecidableEq

def expect : Expect → Token A P B → Option Expect
  | .operand, .closing => none
  | .operator, .closing | .opened, .closing => some .operator
  | .operator, .op (.binary _) => some .operand
  | .operator, _ => none
  | _, .atom _ => some .operator
  | _, .op (.unary _) => some .operand
  | _, .op (.binary _) => none
  | _, .opening => some .opened

/-- Operands and operators alternate; a group may be empty. -/
def Alternates (ts : List (Token A P B)) : Prop := ∃ e, run expect .operand ts = some e

def Token.Group (t : Token A P B) : Prop := t = .opening ∨ t = .closing

/-- The tokens of a tree alternate. -/
theorem run_expect_tokens {t : Source A P B} {e : Expect} (he : e ≠ .operator) :
    run expect e t.tokens = some .operator := by
  induction t generalizing e with
  | atom a => cases e <;> first | rfl | exact absurd rfl he
  | group t ih =>
      have hopen : expect e (.opening : Token A P B) = some .opened := by
        cases e <;> first | rfl | exact absurd rfl he
      rw [Source.tokens, run_cons, hopen, Option.bind_some, run_append, ih (by simp)]
      rfl
  | unary p t ih =>
      have hop : expect e (.op (.unary p) : Token A P B) = some .operand := by
        cases e <;> first | rfl | exact absurd rfl he
      rw [Source.tokens, run_cons, hop, Option.bind_some, ih (by simp)]
  | binary b l r ihl ihr =>
      rw [Source.tokens, run_append, ihl he, Option.bind_some, run_cons]
      exact ihr (by simp)

/-- Nothing but empty groups inside each other. -/
def Blank (ts : List (Token A P B)) : Prop :=
  ∃ k, ts = List.replicate k .opening ++ List.replicate k .closing

theorem run_expect_opening (k : ℕ) {e : Expect} (he : e ≠ .operator) (us : List (Token A P B)) :
    run expect e (List.replicate (k + 1) .opening ++ us) = run expect .opened us := by
  have hopen : expect e (.opening : Token A P B) = some .opened := by
    cases e <;> first | rfl | exact absurd rfl he
  rw [List.replicate_succ, List.cons_append, run_cons, hopen, Option.bind_some]
  induction k with
  | zero => rfl
  | succ k ih =>
      rw [List.replicate_succ, List.cons_append, run_cons]
      exact ih

theorem run_expect_closing (k : ℕ) :
    run expect .operator (List.replicate k (.closing : Token A P B)) = some .operator := by
  induction k with
  | zero => rfl
  | succ k ih =>
      rw [List.replicate_succ, run_cons]
      exact ih

theorem Blank.alternates {ts : List (Token A P B)} (h : Blank ts) : Alternates ts := by
  obtain ⟨k, rfl⟩ := h
  cases k with
  | zero => exact ⟨.operand, rfl⟩
  | succ k =>
      refine ⟨.operator, ?_⟩
      rw [run_expect_opening k (by simp), List.replicate_succ, run_cons]
      exact run_expect_closing k

namespace Grammar

variable {g : Grammar A P B} {ts : List (Token A P B)} {e : Expect} {m : Machine A P B}

/-- How many operands are complete beside those that operators wait for. -/
def operands : Expect → ℕ
  | .operator => 1
  | _ => 0

/-- An empty group was read, so a value is missing. -/
def Missing (ts : List (Token A P B)) (e : Expect) (m : Machine A P B) : Prop :=
  m.es.length < pending m.os + operands e ∧ ((∃ t ∈ ts, ¬ t.Group) → Busy m.es m.os)

variable (g) in
/-- What is known when the tokens are read. -/
def After (ts : List (Token A P B)) (m : Machine A P B) : Expect → Prop
  | .operator => (∃ t, t.rightSpine = [] ∧ g.Read t ts m.es m.os) ∨ Missing ts .operator m
  | e => g.Waiting ts m.es m.os ∨ Missing ts e m

theorem Waiting.length {es : List A} {os : List (Mark P B)} (h : g.Waiting ts es os) :
    es.length = pending os := by
  induction h with
  | nil => rfl
  | opening _ ih => exact ih
  | unary p _ ih => exact ih
  | binary b _ _ _ _ _ ih => simp [pending, ih]

theorem Waiting.busy {es : List A} {os : List (Mark P B)} (h : g.Waiting ts es os)
    (hts : ∃ t ∈ ts, ¬ t.Group) : Busy es os := by
  induction h with
  | nil => simp at hts
  | opening _ ih =>
      obtain ⟨t, ht, hgroup⟩ := hts
      rcases List.mem_append.mp ht with ht | ht
      · rcases ih ⟨t, ht, hgroup⟩ with hes | ⟨o, ho⟩
        · exact Or.inl hes
        · exact Or.inr ⟨o, by simp [ho]⟩
      · exact absurd (Or.inl (List.mem_singleton.mp ht)) hgroup
  | unary p _ _ => exact Or.inr ⟨.unary p, by simp⟩
  | binary b _ _ _ _ _ _ => exact Or.inr ⟨.binary b, by simp⟩

/-- A token that keeps what is missing. -/
theorem Missing.snoc {t : Token A P B} {e' : Expect} {m' : Machine A P B} (h : Missing ts e m)
    (hlen : m'.es.length + (pending m.os + operands e) =
      m.es.length + (pending m'.os + operands e'))
    (hbusy : Busy m.es m.os ∨ ¬ t.Group → Busy m'.es m'.os) : Missing (ts ++ [t]) e' m' := by
  refine ⟨by have := h.1; omega, ?_⟩
  rintro ⟨t', ht', hgroup⟩
  rcases List.mem_append.mp ht' with ht' | ht'
  · exact hbusy (Or.inl (h.2 ⟨t', ht', hgroup⟩))
  · obtain rfl := List.mem_singleton.mp ht'
    exact hbusy (Or.inr hgroup)

theorem after_of_ne {ts : List (Token A P B)} (he : e ≠ .operator) :
    g.After ts m e ↔ g.Waiting ts m.es m.os ∨ Missing ts e m := by
  cases e with
  | operator => exact absurd rfl he
  | operand | opened => exact Iff.rfl

/-- A token where an operand is expected. -/
theorem after_operand {t : Token A P B} {e' : Expect} {m' : Machine A P B}
    (h : g.After ts m e) (he : e ≠ .operator) (hexpect : expect e t = some e')
    (hstep : g.step m t = some m') : g.After (ts ++ [t]) m' e' := by
  have hzero : operands e = 0 := by cases e <;> simp_all [operands]
  cases t with
  | atom a =>
      have he' : e' = .operator := by cases e <;> simp_all [expect]
      subst he'
      cases hstep
      rcases (after_of_ne he).mp h with hwait | hmiss
      · exact Or.inl ⟨.atom a, rfl, ts, a, m.es, hwait, trivial, rfl, by simp [Source.leftSpine],
          rfl, rfl⟩
      · exact Or.inr (hmiss.snoc (by simp [operands]; omega) fun _ => Or.inl (by simp))
  | opening =>
      have he' : e' = .opened := by cases e <;> simp_all [expect]
      subst he'
      cases hstep
      rcases (after_of_ne he).mp h with hwait | hmiss
      · exact Or.inl hwait.opening
      · refine Or.inr (hmiss.snoc (by simp [operands, pending]) ?_)
        rintro ((hes | ⟨o, ho⟩) | hgroup)
        · exact Or.inl hes
        · exact Or.inr ⟨o, by simp [ho]⟩
        · exact absurd (Or.inl rfl) hgroup
  | closing =>
      -- the group just opened is empty
      have he₀ : e = .opened := by cases e <;> simp_all [expect]
      have he' : e' = .operator := by cases e <;> simp_all [expect]
      subst he₀ he'
      obtain ⟨hlen, hbusy⟩ := close_length hstep
      refine Or.inr ⟨?_, ?_⟩
      · have hle : m.es.length ≤ pending m.os := by
          rcases h with hwait | hmiss
          · exact Nat.le_of_eq hwait.length
          · exact Nat.le_of_lt hmiss.1
        simp only [operands]
        omega
      · rintro ⟨t, ht, hgroup⟩
        have ht' : t ∈ ts := by
          rcases List.mem_append.mp ht with ht | ht
          · exact ht
          · exact absurd (Or.inr (List.mem_singleton.mp ht)) hgroup
        rcases h with hwait | hmiss
        · exact hbusy (hwait.busy ⟨t, ht', hgroup⟩)
        · exact hbusy (hmiss.2 ⟨t, ht', hgroup⟩)
  | op o =>
      cases o with
      | binary b => cases e <;> simp_all [expect]
      | unary p =>
          have he' : e' = .operand := by cases e <;> simp_all [expect]
          subst he'
          cases hstep
          rcases (after_of_ne he).mp h with hwait | hmiss
          · exact Or.inl (hwait.unary p)
          · exact Or.inr (hmiss.snoc (by simp [operands, pending])
              fun _ => Or.inr ⟨.unary p, by simp⟩)

/-- A token where an operator is expected. -/
theorem after_operator {t : Token A P B} {e' : Expect} {m' : Machine A P B}
    (h : g.After ts m .operator) (hexpect : expect .operator t = some e')
    (hstep : g.step m t = some m') : g.After (ts ++ [t]) m' e' := by
  cases t with
  | atom a | opening => cases hexpect
  | closing =>
      cases hexpect
      rcases h with ⟨t, _, hread⟩ | hmiss
      · obtain ⟨t', hread'⟩ := hread.close hstep
        exact Or.inl ⟨_, rfl, hread'⟩
      · obtain ⟨hlen, hbusy⟩ := close_length hstep
        refine Or.inr (hmiss.snoc (by simp only [operands]; omega) ?_)
        rintro (hm | hgroup)
        · exact hbusy hm
        · exact absurd (Or.inr rfl) hgroup
  | op o =>
      cases o with
      | unary p => cases hexpect
      | binary b =>
          cases hexpect
          obtain ⟨m₁, hreduce, rfl⟩ := Option.map_eq_some_iff.mp hstep
          rcases h with ⟨t, hspine, hread⟩ | hmiss
          · obtain ⟨t', ⟨ts', a, es', hwait, ht', hval, hleft, rfl, hes⟩, hright, hstops⟩ :=
              hread.reduce (by simp [hspine]) hreduce
            refine Or.inl ?_
            simp only [hes]
            refine .binary b hwait ht' hval hright ?_
            simpa using ⟨hstops, hleft⟩
          · have hlen := reduce_length hreduce
            exact Or.inr (hmiss.snoc (by simp only [operands, pending]; omega)
              fun _ => Or.inr ⟨.binary b, by simp⟩)

theorem after_step {t : Token A P B} {e' : Expect} {m' : Machine A P B} (h : g.After ts m e)
    (hexpect : expect e t = some e') (hstep : g.step m t = some m') :
    g.After (ts ++ [t]) m' e' := by
  by_cases he : e = .operator
  · subst he
    exact after_operator h hexpect hstep
  · exact after_operand h he hexpect hstep

theorem after_run {us : List (Token A P B)} {e' : Expect} {m' : Machine A P B}
    (h : g.After ts m e) (hexpect : run expect e us = some e') (hrun : run g.step m us = some m') :
    g.After (ts ++ us) m' e' := by
  induction us generalizing ts e m with
  | nil =>
      cases hexpect
      cases hrun
      simpa using h
  | cons u us ih =>
      obtain ⟨e₁, he₁, hexpect'⟩ := run_cons_eq_some hexpect
      obtain ⟨m₁, hm₁, hrun'⟩ := run_cons_eq_some hrun
      simpa using ih (after_step h he₁ hm₁) hexpect' hrun'

theorem Missing.finish {es : List A} (h : Missing ts e m) (hfinish : g.finish m.es m.os = some es) :
    es = [] ∧ ∀ t ∈ ts, t.Group := by
  obtain ⟨hlen, hbusy⟩ := finish_length hfinish
  have hle : operands e ≤ 1 := by cases e <;> simp [operands]
  have hes : es = [] := List.eq_nil_of_length_eq_zero (by have := h.1; omega)
  refine ⟨hes, fun t ht => ?_⟩
  by_contra hgroup
  exact hbusy (h.2 ⟨t, ht, hgroup⟩) hes

/-- An operator that still waits for its operand cannot be bound. -/
theorem Waiting.finish {es es' : List A} {os : List (Mark P B)} (h : g.Waiting ts es os)
    (hfinish : g.finish es os = some es') : es' = [] ∧ ts = [] := by
  obtain ⟨hlen, hbusy⟩ := finish_length hfinish
  have hes' : es' = [] := List.eq_nil_of_length_eq_zero (by have := h.length; omega)
  refine ⟨hes', ?_⟩
  cases h with
  | nil => rfl
  | opening _ => cases hfinish
  | unary p _ => exact absurd hes' (hbusy (Or.inr ⟨.unary p, by simp⟩))
  | binary b _ _ _ _ _ => exact absurd hes' (hbusy (Or.inr ⟨.binary b, by simp⟩))

/-! ### Empty groups -/

theorem replicate_closing_append {k : ℕ} {us : List (Token A P B)} (hus : ∀ t ∈ us, t.Group)
    (h : (run expect .operator us).isSome) :
    List.replicate k .closing ++ us = List.replicate (k + us.length) (.closing : Token A P B) := by
  induction us generalizing k with
  | nil => simp
  | cons u us ih =>
      rcases hus u (by simp) with rfl | rfl
      · simp [expect] at h
      · have := ih (k := k + 1) (fun t ht => hus t (by simp [ht])) (by simpa [expect] using h)
        rw [List.replicate_succ', List.append_assoc] at this
        rw [List.singleton_append] at this
        rw [this, List.length_cons, Nat.add_assoc, Nat.add_comm 1]

/-- Without operands and operators, groups are opened and then closed. -/
theorem group_tokens {us : List (Token A P B)} {e : Expect} (he : e ≠ .operator)
    (hus : ∀ t ∈ us, t.Group) (h : (run expect e us).isSome) :
    ∃ j k, us = List.replicate j .opening ++ List.replicate k .closing := by
  induction us generalizing e with
  | nil => exact ⟨0, 0, rfl⟩
  | cons u us ih =>
      have hus' : ∀ t ∈ us, t.Group := fun t ht => hus t (by simp [ht])
      rcases hus u (by simp) with rfl | rfl
      · have hopened : (run expect .opened us).isSome := by
          cases e <;> simp_all [expect]
        obtain ⟨j, k, rfl⟩ := ih (by simp) hus' hopened
        exact ⟨j + 1, k, by simp [List.replicate_succ]⟩
      · have hclosed : (run expect .operator us).isSome := by
          cases e <;> simp_all [expect]
        refine ⟨0, 1 + us.length, ?_⟩
        simpa using replicate_closing_append (k := 1) hus' hclosed

theorem run_replicate_opening (k : ℕ) (os : List (Mark P B)) (us : List (Token A P B)) :
    run g.step ⟨[], os⟩ (List.replicate k .opening ++ us) =
      run g.step ⟨[], List.replicate k .opening ++ os⟩ us := by
  induction k generalizing os with
  | zero => rfl
  | succ k ih =>
      rw [List.replicate_succ, List.cons_append, run_cons, step, Option.bind_some, ih,
        List.replicate_succ', List.append_assoc, List.singleton_append]

theorem parse_groups_iff {j k : ℕ} {es : List A} :
    g.parse (List.replicate j .opening ++ List.replicate k .closing) = some es ↔
      j = k ∧ es = [] := by
  rw [parse, run_replicate_opening, List.append_nil]
  induction k generalizing j with
  | zero =>
      cases j with
      | zero => simp [finish, eq_comm]
      | succ j => simp [List.replicate_succ, finish]
  | succ k ih =>
      cases j with
      | zero => simp [List.replicate_succ, step, close]
      | succ j => simpa [List.replicate_succ, step, close] using ih

/-- The accepted texts are the texts of well formed trees, which give the value
of the tree, and those of empty groups, which give none. -/
theorem parse_eq_some_iff (hts : Alternates ts) {es : List A} :
    g.parse ts = some es ↔
      (∃ t a, g.WellPrec t ∧ t.tokens = ts ∧ g.value t = some a ∧ es = [a]) ∨
        Blank ts ∧ es = [] := by
  constructor
  · intro h
    obtain ⟨m, hrun, hfinish⟩ := Option.bind_eq_some_iff.mp h
    obtain ⟨e, he⟩ := hts
    have hstart : g.After [] ⟨[], []⟩ .operand := Or.inl Waiting.nil
    have hafter : g.After ts m e := after_run hstart he hrun
    have hblank : (∀ t ∈ ts, t.Group) → es = [] → Blank ts ∧ es = [] := by
      intro hgroup hes
      obtain ⟨j, k, rfl⟩ := group_tokens (by decide) hgroup (Option.isSome_iff_exists.mpr ⟨e, he⟩)
      obtain ⟨rfl, _⟩ := parse_groups_iff.mp h
      exact ⟨⟨j, rfl⟩, hes⟩
    by_cases hop : e = .operator
    · subst hop
      rcases hafter with ⟨t, _, hread⟩ | hmiss
      · exact Or.inl (hread.finish hfinish)
      · obtain ⟨hes, hgroup⟩ := hmiss.finish hfinish
        exact Or.inr (hblank hgroup hes)
    · rcases (after_of_ne hop).mp hafter with hwait | hmiss
      · obtain ⟨hes, rfl⟩ := hwait.finish hfinish
        exact Or.inr (hblank (by simp) hes)
      · obtain ⟨hes, hgroup⟩ := hmiss.finish hfinish
        exact Or.inr (hblank hgroup hes)
  · rintro (⟨t, a, ht, rfl, hval, rfl⟩ | ⟨⟨k, rfl⟩, rfl⟩)
    · exact g.parse_tokens ht hval
    · exact parse_groups_iff.mpr ⟨rfl, rfl⟩

end Grammar

end EceLib.Support.Precedence
