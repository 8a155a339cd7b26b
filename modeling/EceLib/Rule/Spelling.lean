import EceLib.Rule.Accepted

/-!
# Writing an expression

A text spells tokens if they stand one after the other with blanks between them,
but none after a unary operator.  Spelling a tree that keeps the priorities and
reading the text gives the tree back.
-/

namespace EceLib.Rule

open Support Support.Precedence

variable {F : Type} (ft : Target F)

def unaryChr : UnaryOp → Char
  | .minus => '-'
  | .logicalNot => '!'
  | .bitwiseNot => '^'

/-- The characters of a token. -/
def Written (text : List Char) : Tok F → Prop
  | .atom (.const num) =>
      text.head?.any isDigit ∧ (∀ c ∈ text, c = '.' ∨ isDigit c = true) ∧
        exprParseNumber ft text = some num
  | .atom (.var name) => text = name ∧ name.head?.any isFirstVarChr ∧ ∀ c ∈ name, isVarChr c = true
  | .atom _ => False
  | .op (.unary op) => text = [unaryChr op]
  | .op (.binary op) => text = binaryText op
  | .opening => text = ['(']
  | .closing => text = [')']

def IsUnary : Tok F → Bool
  | .op (.unary _) => true
  | _ => false

/-- Blanks other than the end of a line. -/
def Blanks (tight : Bool) (bs : List Char) : Prop :=
  (∀ c ∈ bs, isSpace c = true ∧ c ≠ '\n') ∧ (tight = true → bs = [])

/-- The text spells the tokens where `e` is expected; `tight` after a unary
operator. -/
inductive Spells : Bool → Expect → List (Tok F) → List Char → Prop where
  | nil {tight e bs} : Blanks tight bs → Spells tight e [] bs
  | cons {tight e e' bs text k ts s} : Blanks tight bs → Written ft text k → expect e k = some e' →
      Spells (IsUnary k) e' ts s → Spells tight e (k :: ts) (bs ++ (text ++ s))

variable {ft}

/-! ## Where a token ends -/

/-- A token has a first character, which is no blank. -/
theorem Written.head {text : List Char} {k : Tok F} (h : Written ft text k) :
    ∃ c rest, text = c :: rest ∧ isSpace c = false ∧ c ≠ '#' := by
  match k with
  | .atom (.const num) =>
      obtain ⟨hhead, _, _⟩ := h
      cases text with
      | nil => simp at hhead
      | cons c rest =>
          have hc : isDigit c = true := by simpa using hhead
          exact ⟨c, rest, rfl, not_isSpace_of_isDigit hc, by rintro rfl; simp [isDigit_iff] at hc⟩
  | .atom (.var name) =>
      obtain ⟨rfl, hhead, _⟩ := h
      cases text with
      | nil => simp at hhead
      | cons c rest =>
          have hc : isFirstVarChr c = true := by simpa using hhead
          exact ⟨c, rest, rfl, not_isSpace_of_isFirstVarChr hc, ne_of_isFirstVarChr hc (by decide)⟩
  | .op (.unary op) =>
      obtain rfl := h
      exact ⟨_, [], rfl, by cases op <;> decide, by cases op <;> decide⟩
  | .op (.binary op) =>
      obtain rfl := h
      cases op <;> exact ⟨_, _, rfl, by decide, by decide⟩
  | .opening =>
      obtain rfl := h
      exact ⟨_, [], rfl, by decide, by decide⟩
  | .closing =>
      obtain rfl := h
      exact ⟨_, [], rfl, by decide, by decide⟩

/-- Nothing that belongs to a number or a name. -/
def Stop (s : List Char) : Prop := ∀ c ∈ s.head?, isVarChr c = false ∧ c ≠ '.'

theorem isVarChr_iff {c : Char} :
    isVarChr c = true ↔ isFirstVarChr c = true ∨ c = '#' ∨ isDigit c = true := by
  simp only [isVarChr, isFirstVarChr, isDigit, Bool.or_eq_true, beq_iff_eq, or_assoc]

theorem not_isVarChr_of_isSpace {c : Char} (h : isSpace c = true) : isVarChr c = false := by
  rw [Bool.eq_false_iff]
  intro hvar
  rcases isVarChr_iff.mp hvar with hvar | rfl | hvar
  · rw [not_isSpace_of_isFirstVarChr hvar] at h
    cases h
  · exact absurd h (by decide)
  · rw [not_isSpace_of_isDigit hvar] at h
    cases h

/-- After an operand comes a blank, an operator, a parenthesis or nothing. -/
theorem Spells.stop {tight : Bool} {ts : List (Tok F)} {s : List Char}
    (h : Spells ft tight .operator ts s) : Stop s := by
  intro c hc
  have hblank : ∀ bs : List Char, Blanks tight bs → ∀ d, bs.head? = some d →
      isVarChr d = false ∧ d ≠ '.' := by
    intro bs hbs d hd
    have hspace := (hbs.1 d (List.mem_of_head? hd)).1
    exact ⟨not_isVarChr_of_isSpace hspace, by rintro rfl; simp [isSpace] at hspace⟩
  cases h with
  | nil hbs => exact hblank s hbs c hc
  | @cons _ _ _ bs text k ts s hbs hwritten hexpect _ =>
      cases bs with
      | cons b bs => exact hblank (b :: bs) hbs c (by simpa using hc)
      | nil =>
          cases k with
          | op o =>
              cases o with
              | binary op =>
                  obtain rfl := hwritten
                  cases op <;> (simp only [binaryText, List.nil_append, List.cons_append,
                    List.head?_cons, Option.mem_some_iff] at hc; subst hc; decide)
              | unary _ => cases hexpect
          | closing =>
              obtain rfl := hwritten
              simp only [List.nil_append, List.cons_append, List.head?_cons,
                Option.mem_some_iff] at hc
              subst hc
              decide
          | atom _ => cases hexpect
          | opening => cases hexpect

/-- What may come after a binary operator does not make it longer. -/
def NoOperator (s : List Char) : Prop :=
  ∀ c ∈ s.head?, isVarChr c = true ∨ isSpace c = true ∨ c = '(' ∨ c = '-' ∨ c = '!' ∨ c = '^' ∨
    c = ','

/-- The text goes on after the token `k` with something that does not belong to
it. -/
def Ends (s : List Char) : Tok F → Prop
  | .atom _ => Stop s
  | .op (.binary _) => NoOperator s
  | .op (.unary _) | .opening | .closing => True

theorem Spells.noOperator {ts : List (Tok F)} {s : List Char}
    (h : Spells ft false .operand ts s) : NoOperator s := by
  intro c hc
  have hblank : ∀ bs : List Char, Blanks false bs → ∀ d, bs.head? = some d → isSpace d = true :=
    fun bs hbs d hd => (hbs.1 d (List.mem_of_head? hd)).1
  cases h with
  | nil hbs => exact Or.inr (Or.inl (hblank s hbs c hc))
  | @cons _ _ _ bs text k ts s hbs hwritten hexpect _ =>
      cases bs with
      | cons b bs => exact Or.inr (Or.inl (hblank (b :: bs) hbs c (by simpa using hc)))
      | nil =>
          obtain ⟨d, rest, rfl, _⟩ := hwritten.head
          obtain rfl : d = c := by simpa using hc
          match k with
          | .atom (.const num) =>
              exact Or.inl (isVarChr_iff.mpr (Or.inr (Or.inr (by simpa using hwritten.1))))
          | .atom (.var name) =>
              obtain ⟨rfl, hhead, _⟩ := hwritten
              exact Or.inl (isVarChr_iff.mpr (Or.inl (by simpa using hhead)))
          | .op (.unary op) =>
              cases op <;> (cases hwritten; simp [unaryChr])
          | .opening =>
              cases hwritten
              simp
          | .op (.binary _) | .closing => cases hexpect

theorem Spells.ends {e e' : Expect} {k : Tok F} {ts : List (Tok F)} {s : List Char}
    (h : Spells ft (IsUnary k) e' ts s) (hexpect : expect e k = some e') : Ends s k := by
  match k with
  | .atom _ =>
      obtain rfl : e' = .operator := by cases e <;> simp_all [expect]
      exact h.stop
  | .op (.binary _) =>
      obtain rfl : e' = .operand := by cases e <;> simp_all [expect]
      exact h.noOperator
  | .op (.unary _) | .opening | .closing => trivial

theorem operatorScan_stop {text s : List Char} (hs : NoOperator s)
    (htext : ∀ c ∈ ['-', '!', '^', ','], exprOp (text ++ [c]) (some false) = .unknown) :
    operatorScan (text ++ s) s text.length true = (text.length, true) := by
  cases s with
  | nil => rfl
  | cons c s =>
      rw [operatorScan]
      have htake : (text ++ c :: s).take (text.length + 1) = text ++ [c] :=
        List.take_length_add_append 1
      rw [htake]
      rcases hs c rfl with h | h | rfl | h
      · simp [h]
      · simp [h]
      · simp
      · have hop := htext c (by simpa using h)
        simp [hop]

theorem operatorScan_binaryText (op : BinaryOp) {s : List Char} (hs : NoOperator s) :
    operatorScan (binaryText op ++ s) (binaryText op ++ s) 0 false =
      ((binaryText op).length, true) := by
  have hfound : operatorScan (binaryText op ++ s) (binaryText op ++ s) 0 false =
      operatorScan (binaryText op ++ s) s (binaryText op).length true := by
    cases op <;> rfl
  rw [hfound, operatorScan_stop hs]
  cases op <;> decide

theorem takeWhile_append_stop {p : Char → Bool} {text s : List Char}
    (htext : ∀ c ∈ text, p c = true)
    (hs : ∀ c ∈ s.head?, p c = false) : (text ++ s).takeWhile p = text := by
  rw [List.takeWhile_append_of_pos htext]
  cases s with
  | nil => simp
  | cons c s => simp [hs c rfl]

/-! ## Reading one token -/

variable {e e' : Expect} {word : Bool} {flags : Flags} {text s : List Char} {k : Tok F}
  {ts : List (Tok F)}

/-- The lexer ends a written token where the next begins. -/
theorem next_written (hfits : Fits flags word e) (hwritten : Written ft text k)
    (hexpect : expect e k = some e') (hs : Ends s k) :
    ∃ flags' flags'' tok, exprNextToken (text ++ s) flags = some (text.length, flags') ∧
      rewriteToken text flags' = some (tok, flags'') ∧ classify ft tok = some k ∧
      flags''.unary = IsUnary k := by
  match k with
  | .atom (.const num) =>
      obtain rfl : e' = .operator := by cases e <;> simp_all [expect]
      have hhead := hwritten.head
      obtain ⟨hdigit, hall, hnum⟩ := hwritten
      obtain ⟨c, rest, rfl, _⟩ := hhead
      have hc : isDigit c = true := by simpa using hdigit
      have hnumber : flags.tnumber = true := by
        cases e with
        | operator => cases hexpect
        | operand | opened => rw [hfits]
      have htake : ((c :: rest) ++ s).takeWhile (fun c => c == '.' || isDigit c) = c :: rest := by
        refine takeWhile_append_stop (by simpa using hall) fun d hd => ?_
        obtain ⟨hvar, hdot⟩ := hs d hd
        have hdigit : isDigit d = false := by
          rw [Bool.eq_false_iff]
          intro h
          simp [isVarChr_iff.mpr (Or.inr (Or.inr h))] at hvar
        simp [hdot, hdigit]
      refine ⟨{ Flags.none with top := true, tclose := true }, _, _, ?_,
        rewriteToken_eq_self rfl rfl, ?_, rfl⟩
      · rw [List.cons_append, exprNextToken_digit _ hc, hnumber, ← List.cons_append, htake]
        rfl
      · rw [classify_number ft hc, hnum]
        rfl
  | .atom (.var name) =>
      obtain rfl : e' = .operator := by cases e <;> simp_all [expect]
      have hhead := hwritten.head
      obtain ⟨rfl, hfirst, hall⟩ := hwritten
      obtain ⟨c, rest, rfl, _⟩ := hhead
      have hc : isFirstVarChr c = true := by simpa using hfirst
      have hword : flags.tword = true := by
        cases e with
        | operator => cases hexpect
        | operand | opened => rw [hfits]
      have htake : ((c :: rest) ++ s).takeWhile isVarChr = c :: rest :=
        takeWhile_append_stop hall fun d hd => (hs d hd).1
      refine ⟨{ Flags.none with top := true, topen := true, tclose := true }, _, _, ?_,
        rewriteToken_eq_self rfl rfl, classify_word ft hc, rfl⟩
      rw [List.cons_append, exprNextToken_word _ hc, hword, ← List.cons_append, htake]
      rfl
  | .op (.unary op) =>
      obtain rfl := hwritten
      have htop : flags.top = false := by
        cases e with
        | operator => cases hexpect
        | operand | opened => rw [hfits]; rfl
      have hchr : IsOpChr (unaryChr op) := by cases op <;> decide
      have hop : exprOp [unaryChr op] (some true) ≠ .unknown := by cases op <;> decide
      have hcases : [unaryChr op] = ['-'] ∨ [unaryChr op] = ['^'] ∨ [unaryChr op] = ['!'] := by
        cases op <;> decide
      have htext : [unaryChr op] ++ ['u'] = unaryText op := by cases op <;> rfl
      refine ⟨{ Flags.none with tnumber := true, tword := true, topen := true, unary := true }, _,
        _, ?_, rewriteToken_unary hcases rfl, ?_, rfl⟩
      · rw [List.singleton_append, exprNextToken_op _ hchr, htop, Bool.not_false, if_pos rfl,
          if_neg hop]
        rfl
      · rw [htext, classify_unaryText]
  | .op (.binary op) =>
      obtain rfl := hwritten
      obtain ⟨rfl, rfl⟩ : e = .operator ∧ e' = .operand := by cases e <;> simp_all [expect]
      have htop : flags.top = true := by rw [hfits]
      have hscan := operatorScan_binaryText op hs
      obtain ⟨c, rest, htext, hc⟩ : ∃ c rest, binaryText op = c :: rest ∧ IsOpChr c := by
        cases op <;> exact ⟨_, _, rfl, by decide⟩
      refine ⟨{ Flags.none with tnumber := true, tword := true, topen := true }, _, _, ?_,
        rewriteToken_eq_self rfl rfl, classify_binaryText ft op, rfl⟩
      rw [htext, List.cons_append] at hscan ⊢
      rw [exprNextToken_op _ hc, htop, hscan]
      rfl
  | .opening =>
      obtain rfl := hwritten
      have hopen : flags.topen = true := by
        cases e with
        | operator => cases hexpect
        | operand | opened => rw [hfits]
      refine ⟨{ Flags.none with tnumber := true, tword := true, topen := true, tclose := true }, _,
        _, ?_, rewriteToken_eq_self rfl rfl, classify_open, rfl⟩
      rw [List.singleton_append, exprNextToken_open, if_pos hopen]
      rfl
  | .closing =>
      obtain rfl := hwritten
      have hclose : flags.tclose = true := by
        cases e with
        | operand => cases hexpect
        | operator | opened => rw [hfits]
      refine ⟨{ Flags.none with top := true, tclose := true }, _, _, ?_,
        rewriteToken_eq_self rfl rfl, classify_close, rfl⟩
      rw [List.singleton_append, exprNextToken_close, if_pos hclose]
      rfl

/-! ## Reading the text -/

theorem rewriteToken_head {c : Char} {rest tok : List Char} {flags' : Flags}
    (hc : isSpace c = false) (h : rewriteToken (c :: rest) flags = some (tok, flags')) :
    tok.head? = some c := by
  have hn : c ≠ '\n' := by rintro rfl; exact absurd hc (by decide)
  unfold rewriteToken at h
  split at h
  · split at h
    · cases h
      rfl
    · cases h
  · rw [if_neg (by simp [hn])] at h
    cases h
    rfl

theorem exprTokens_written (fuel : ℕ) (hfits : Fits flags word e) (hwritten : Written ft text k)
    (hexpect : expect e k = some e') (hs : Ends s k) :
    ∃ flags', Fits flags' (IsWord k) e' ∧ flags'.unary = IsUnary k ∧
      exprTokens ft (fuel + 1) (text ++ s) flags =
        (exprTokens ft fuel s flags').map (k :: ·) := by
  obtain ⟨flags', flags'', tok, hnext, hre, hclass, hunary⟩ :=
    next_written hfits hwritten hexpect hs
  obtain ⟨c, rest, rfl, hspace, hcomment⟩ := hwritten.head
  have htake : ((c :: rest) ++ s).take (c :: rest).length = c :: rest := List.take_left ..
  have hdrop : ((c :: rest) ++ s).drop (c :: rest).length = s := List.drop_left ..
  have hhead : tok.head? = some c := rewriteToken_head hspace hre
  rw [← htake] at hre
  rw [List.cons_append] at hnext hre
  have hfits' : Fits flags'' (IsWord k) e' := by
    rcases (lexed hfits hcomment hnext hre).2 with ⟨hblank, _⟩ | ⟨_, hfollows⟩
    · simp [hhead, hspace] at hblank
    · obtain ⟨_, ⟨e₁, he₁, hfits'⟩ | ⟨rfl, _, rfl, _⟩⟩ := hfollows k hclass
      · obtain rfl : e₁ = e' := Option.some.inj (he₁.symm.trans hexpect)
        exact hfits'
      · cases hexpect
  refine ⟨flags'', hfits', hunary, ?_⟩
  rw [exprTokens, List.cons_append, hnext]
  simp only [List.length_cons]
  have hne : (c :: (rest ++ s)).head? ≠ some '#' := by simpa using hcomment
  rw [if_neg hne]
  rw [List.length_cons] at hre
  rw [hre]
  simp only [hhead, Option.map_some, Option.getD_some, hspace, Bool.false_eq_true, if_false, hclass,
    Option.bind_some]
  rw [← List.length_cons, ← List.cons_append, hdrop]

/-- A run of blanks is skipped. -/
theorem exprTokens_blanks (fuel : ℕ) (hfits : Fits flags word e) {b : Char} {bs : List Char}
    (hbs : ∀ c ∈ b :: bs, isSpace c = true ∧ c ≠ '\n') (hunary : flags.unary = false)
    (hs : ∀ c ∈ s.head?, isSpace c = false) :
    exprTokens ft (fuel + 1) ((b :: bs) ++ s) flags = exprTokens ft fuel s flags := by
  have hall : ∀ c ∈ b :: bs, (isSpace c && c != '\n') = true := fun c hc => by
    simp [hbs c hc]
  have htake : ((b :: bs) ++ s).takeWhile (fun c => isSpace c && c != '\n') = b :: bs :=
    takeWhile_append_stop hall fun c hc => by simp [hs c hc]
  obtain ⟨hspace, hn⟩ := hbs b (by simp)
  have hcomment : b ≠ '#' := by rintro rfl; simp [isSpace] at hspace
  have hdrop : ((b :: bs) ++ s).drop (b :: bs).length = s := List.drop_left ..
  have hnext : exprNextToken ((b :: bs) ++ s) flags = some ((b :: bs).length, flags) := by
    rw [List.cons_append, exprNextToken_blank _ hspace hn, ← List.cons_append, htake]
  have hre : rewriteToken (((b :: bs) ++ s).take (b :: bs).length) flags =
      some (b :: bs, flags) := by
    rw [List.take_left]
    exact rewriteToken_eq_self hunary hfits.comma
  have hne : ((b :: bs) ++ s).head? ≠ some '#' := by simpa using hcomment
  rw [exprTokens, hnext]
  simp only [List.length_cons]
  rw [if_neg hne]
  rw [List.length_cons] at hre hdrop
  rw [hre, hdrop]
  simp [hspace]

/-- A text that spells tokens is read as these tokens. -/
theorem exprTokens_of_spells {tight : Bool} {fuel : ℕ} (h : Spells ft tight e ts s)
    (hfuel : s.length ≤ fuel) (hfits : Fits flags word e) (hunary : flags.unary = tight) :
    exprTokens ft fuel s flags = some ts := by
  induction h generalizing fuel flags word with
  | @nil tight e bs hbs =>
      cases bs with
      | nil => cases fuel <;> rfl
      | cons b bs =>
          have htight : flags.unary = false := by
            rw [hunary, Bool.eq_false_iff]
            exact fun h => by simpa using hbs.2 h
          obtain ⟨fuel, rfl⟩ : ∃ n, fuel = n + 1 :=
            Nat.exists_eq_succ_of_ne_zero (by simp at hfuel; omega)
          rw [← List.append_nil (b :: bs), exprTokens_blanks fuel hfits hbs.1 htight (by simp)]
          cases fuel <;> rfl
  | @cons tight e e' bs text k ts s hbs hwritten hexpect hrest ih =>
      have hread : ∀ fuel, (text ++ s).length ≤ fuel →
          exprTokens ft fuel (text ++ s) flags = some (k :: ts) := by
        intro fuel hfuel
        obtain ⟨c, rest, rfl, _⟩ := hwritten.head
        obtain ⟨fuel, rfl⟩ : ∃ n, fuel = n + 1 :=
          Nat.exists_eq_succ_of_ne_zero (by simp at hfuel; omega)
        obtain ⟨flags', hfits', hunary', htokens⟩ :=
          exprTokens_written fuel hfits hwritten hexpect (hrest.ends hexpect)
        rw [htokens, ih (by simp at hfuel; omega) hfits' hunary']
        rfl
      cases bs with
      | nil => exact hread fuel (by simpa using hfuel)
      | cons b bs =>
          have htight : flags.unary = false := by
            rw [hunary, Bool.eq_false_iff]
            exact fun h => by simpa using hbs.2 h
          obtain ⟨fuel, rfl⟩ : ∃ n, fuel = n + 1 :=
            Nat.exists_eq_succ_of_ne_zero (by simp at hfuel; omega)
          have hhead : ∀ c ∈ (text ++ s).head?, isSpace c = false := by
            obtain ⟨c, rest, rfl, hspace, _⟩ := hwritten.head
            simpa using hspace
          rw [exprTokens_blanks fuel hfits hbs.1 htight hhead]
          exact hread fuel (by simp at hfuel ⊢; omega)

/-- In the order of the tokens no parenthesis follows a word. -/
theorem noCall_of_run_expect {e' : Expect} {id : List Char} (hid : id ≠ [] → e = .operator)
    (h : run expect e ts = some e') : NoCall id ts := by
  induction ts generalizing e id with
  | nil => trivial
  | cons k ts ih =>
      obtain ⟨e₁, he₁, hrest⟩ := run_cons_eq_some h
      match k with
      | .opening =>
          refine ⟨?_, ih (by simp) hrest⟩
          rintro rfl
          rw [hid (by simp)] at he₁
          cases he₁
      | .atom (.var name) =>
          refine ih (fun _ => ?_) hrest
          cases e <;> simp_all [expect]
      | .atom (.const _) | .atom (.unary _ _) | .atom (.binary _ _ _) | .op _ | .closing =>
          exact ih (by simp) hrest

/-- Tokens of a tree that keeps the priorities are read as the value of the tree. -/
theorem exprCreate_of_tokens {t : Source (Expr F) UnaryOp BinaryOp} {x : Expr F}
    {vars : VarList F} (ht : exprGrammar.WellPrec t) (hval : exprGrammar.value t = some x)
    (htokens : tokensOf ft s = some t.tokens) :
    exprCreate ft s vars = .ok (x, declare ft vars t.tokens) := by
  have hrun : run expect .operand t.tokens = some .operator := run_expect_tokens (by simp)
  rw [exprCreate_eq htokens (noCall_of_run_expect (by simp) hrun), hrun,
    Grammar.parse_tokens _ ht hval]
  rfl

/-- A text that spells a tree that keeps the priorities is read as the value of
the tree. -/
theorem exprCreate_of_spells {t : Source (Expr F) UnaryOp BinaryOp} {x : Expr F}
    {vars : VarList F} (ht : exprGrammar.WellPrec t) (hval : exprGrammar.value t = some x)
    (h : Spells ft false .operand t.tokens s) :
    exprCreate ft s vars = .ok (x, declare ft vars t.tokens) :=
  exprCreate_of_tokens ht hval (exprTokens_of_spells h (Nat.le_refl _) fits_tdefault rfl)

/-- Blanks around the operators, and none after the sign. -/
theorem exprCreate_of_spells_sign :
    exprCreate intTarget ['-', 'a', ' ', '*', ' ', '3'] [] =
      .ok (.binary .multiply (.unary .minus (.var ['a'])) (.const 3), [(['a'], 0)]) := by
  have hnone : ∀ tight, Blanks tight [] := fun tight => ⟨by simp, by simp⟩
  have hblank : Blanks false [' '] := ⟨by decide, by simp⟩
  have hthree : Written intTarget ['3'] (.atom (.const 3)) := ⟨rfl, by decide, rfl⟩
  have hspells : Spells intTarget false .operand
      (Source.binary .multiply (.unary .minus (.atom (.var ['a']))) (.atom (.const 3))).tokens _ :=
    .cons (hnone _) rfl rfl <|
    .cons (hnone _) ⟨rfl, rfl, by decide⟩ rfl <|
    .cons hblank rfl rfl <|
    .cons hblank hthree rfl <|
    .nil (hnone _)
  exact exprCreate_of_spells (by decide) rfl hspells

/-! ## Putting texts together -/

end EceLib.Rule
