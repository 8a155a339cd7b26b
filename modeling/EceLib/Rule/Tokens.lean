import EceLib.Support.Precedence
import EceLib.Rule.Create

/-!
# The tokens of an expression

The lexer alone, as the loop of `expr_create` runs it, and what its flags make
of the order of the tokens: operands and operators alternate, except that a
word may be followed by a parenthesis.
-/

namespace EceLib.Rule

open Support Support.Precedence

variable {F : Type} (ft : Target F)

/-- An operand token is the expression it stands for. -/
abbrev Tok (F : Type) := Token (Expr F) UnaryOp BinaryOp

def classify (tok : List Char) : Option (Tok F) :=
  if tok = ['('] then some .opening
  else if tok = [')'] then some .closing
  else
    match exprParseNumber ft tok with
    | some num => some (.atom (.const num))
    | none =>
        match exprOp tok none with
        | .unary op => some (.op (.unary op))
        | .binary op => some (.op (.binary op))
        | .unknown =>
            if (tok.head?.map isDigit).getD true then none else some (.atom (.var tok))

/-- The tokens of the text, or `none` where the lexer or the number ends the
loop. -/
def exprTokens : ℕ → List Char → Flags → Option (List (Tok F))
  | 0, _, _ => some []
  | fuel + 1, s, flags =>
      match exprNextToken s flags with
      | none => none
      | some (0, _) => some []
      | some (n, flags) =>
          if s.head? = some '#' then exprTokens fuel (s.drop n) flags
          else
            match rewriteToken (s.take n) flags with
            | none => none
            | some (tok, flags) =>
                if (tok.head?.map isSpace).getD false then exprTokens fuel (s.drop n) flags
                else (classify ft tok).bind fun k =>
                  (exprTokens fuel (s.drop n) flags).map (k :: ·)

/-! ## Operators -/

def unaryText : UnaryOp → List Char
  | .minus => ['-', 'u']
  | .logicalNot => ['!', 'u']
  | .bitwiseNot => ['^', 'u']

def binaryText : BinaryOp → List Char
  | .power => ['*', '*']
  | .multiply => ['*']
  | .divide => ['/']
  | .remainder => ['%']
  | .plus => ['+']
  | .minus => ['-']
  | .shl => ['<', '<']
  | .shr => ['>', '>']
  | .lt => ['<']
  | .le => ['<', '=']
  | .gt => ['>']
  | .ge => ['>', '=']
  | .eq => ['=', '=']
  | .ne => ['!', '=']
  | .bitwiseAnd => ['&']
  | .bitwiseOr => ['|']
  | .bitwiseXor => ['^']
  | .logicalAnd => ['&', '&']
  | .logicalOr => ['|', '|']
  | .assign => ['=']
  | .comma => [',']

theorem exprOp_unaryText (op : UnaryOp) : exprOp (unaryText op) none = .unary op := by
  cases op <;> decide

theorem exprOp_binaryText (op : BinaryOp) : exprOp (binaryText op) none = .binary op := by
  cases op <;> decide

theorem mem_OPS_of_exprOp {s : List Char} {unary : Option Bool} (h : exprOp s unary ≠ .unknown) :
    s ∈ OPS.map (·.1) := by
  unfold exprOp at h
  split at h
  · rename_i o ho
    have heq : o.1 = s := by
      have := List.find?_some ho
      simp only [Bool.and_eq_true, beq_iff_eq] at this
      exact this.1
    exact heq ▸ List.mem_map_of_mem (List.mem_of_find?_eq_some ho)
  · exact absurd rfl h

/-- What the entries of the table have in common. -/
def OpText (s : List Char) : Prop :=
  (s.head?.all fun c => !isFirstVarChr c && !isDigit c && !isSpace c && c != '.' && c != '#' &&
    c != '(' && c != ')' && c != '\x7b') ∧ s ≠ []

instance (s : List Char) : Decidable (OpText s) := inferInstanceAs (Decidable (_ ∧ _))

theorem opText_of_exprOp {s : List Char} {unary : Option Bool} (h : exprOp s unary ≠ .unknown) :
    OpText s := by
  have hall : ∀ s ∈ OPS.map (·.1), OpText s := by decide
  exact hall s (mem_OPS_of_exprOp h)

theorem exprOp_eq_unknown {s : List Char} {unary : Option Bool} (h : ¬ OpText s) :
    exprOp s unary = .unknown := by
  by_contra hop
  exact h (opText_of_exprOp hop)

/-- The binary operators the lexer finds are those the parser sees. -/
theorem exprOp_of_binary {s : List Char} (h : exprOp s (some false) ≠ .unknown) :
    ∃ op, s = binaryText op := by
  have hall : ∀ s ∈ OPS.map (·.1), exprOp s (some false) ≠ .unknown →
      s ∈ ([.power, .divide, .multiply, .remainder, .plus, .minus, .shl, .shr, .lt, .le, .gt, .ge,
        .eq, .ne, .bitwiseAnd, .bitwiseOr, .bitwiseXor, .logicalAnd, .logicalOr, .assign,
        .comma] : List BinaryOp).map binaryText := by decide
  obtain ⟨op, _, rfl⟩ := List.mem_map.mp (hall s (mem_OPS_of_exprOp h) h)
  exact ⟨op, rfl⟩

theorem exprOp_of_unary {s : List Char} (h : exprOp s (some true) ≠ .unknown) (hs : s.length = 1) :
    ∃ op, s ++ ['u'] = unaryText op ∧ (s = ['-'] ∨ s = ['^'] ∨ s = ['!']) := by
  have hall : ∀ s ∈ OPS.map (·.1), exprOp s (some true) ≠ .unknown → s.length = 1 →
      s = ['-'] ∨ s = ['^'] ∨ s = ['!'] := by decide
  have hcases := hall s (mem_OPS_of_exprOp h) h hs
  refine ⟨if s = ['-'] then .minus else if s = ['^'] then .bitwiseNot else .logicalNot, ?_, hcases⟩
  rcases hcases with rfl | rfl | rfl <;> decide

/-! ## Classes of tokens -/

theorem parseDigits_eq_none {c : Char} {s : List Char} (hdot : c ≠ '.') (hdigit : isDigit c = false)
    (num : F) (frac : ℕ) : parseDigits ft (c :: s) num frac = none := by
  simp [parseDigits, hdot, hdigit]

theorem exprParseNumber_eq_none {c : Char} {s : List Char} (hdot : c ≠ '.')
    (hdigit : isDigit c = false) : exprParseNumber ft (c :: s) = none := by
  simp [exprParseNumber, parseDigits_eq_none ft hdot hdigit]

theorem exprParseNumber_of_opText {s : List Char} (h : OpText s) : exprParseNumber ft s = none := by
  obtain ⟨hhead, hne⟩ := h
  obtain ⟨c, s, rfl⟩ := List.exists_cons_of_ne_nil hne
  simp only [List.head?_cons, Option.all_some, Bool.and_eq_true, bne_iff_ne,
    Bool.not_eq_true'] at hhead
  exact exprParseNumber_eq_none ft (by tauto) (by tauto)

theorem classify_unaryText (op : UnaryOp) :
    classify ft (unaryText op) = some (.op (.unary op)) := by
  have hnum : exprParseNumber ft (unaryText op) = none :=
    exprParseNumber_of_opText ft (by cases op <;> decide)
  have hopen : unaryText op ≠ ['('] ∧ unaryText op ≠ [')'] := by cases op <;> decide
  simp [classify, hopen.1, hopen.2, hnum, exprOp_unaryText]

theorem classify_binaryText (op : BinaryOp) :
    classify ft (binaryText op) = some (.op (.binary op)) := by
  have hnum : exprParseNumber ft (binaryText op) = none :=
    exprParseNumber_of_opText ft (by cases op <;> decide)
  have hopen : binaryText op ≠ ['('] ∧ binaryText op ≠ [')'] := by cases op <;> decide
  simp [classify, hopen.1, hopen.2, hnum, exprOp_binaryText]

theorem isFirstVarChr_iff {c : Char} :
    isFirstVarChr c = true ↔ 64 ≤ c.toNat ∧ c ≠ '^' ∧ c ≠ '|' ∨ c = '$' := by
  have : '@'.toNat = 64 := rfl
  simp [isFirstVarChr, this, and_assoc]

theorem isDigit_iff {c : Char} : isDigit c = true ↔ 48 ≤ c.toNat ∧ c.toNat ≤ 57 := by
  have h0 : '0' ≤ c ↔ 48 ≤ c.toNat := Iff.rfl
  have h9 : c ≤ '9' ↔ c.toNat ≤ 57 := Iff.rfl
  simp [isDigit, h0, h9]

theorem isDigit_of_isFirstVarChr {c : Char} (h : isFirstVarChr c = true) : isDigit c = false := by
  rw [Bool.eq_false_iff, Ne, isDigit_iff]
  rcases isFirstVarChr_iff.mp h with ⟨h, _⟩ | rfl
  · omega
  · decide

theorem ne_of_isFirstVarChr {c d : Char} (h : isFirstVarChr c = true)
    (hd : isFirstVarChr d = false) : c ≠ d := by
  rintro rfl
  simp [h] at hd

theorem classify_word {c : Char} {s : List Char} (h : isFirstVarChr c = true) :
    classify ft (c :: s) = some (.atom (.var (c :: s))) := by
  have hopen : c ≠ '(' := ne_of_isFirstVarChr h (by decide)
  have hclose : c ≠ ')' := ne_of_isFirstVarChr h (by decide)
  have hdot : c ≠ '.' := ne_of_isFirstVarChr h (by decide)
  have hop : exprOp (c :: s) none = .unknown := exprOp_eq_unknown (by simp [OpText, h])
  simp [classify, hopen, hclose, exprParseNumber_eq_none ft hdot (isDigit_of_isFirstVarChr h), hop,
    isDigit_of_isFirstVarChr h]

/-- A token that starts with a digit is a number or an error. -/
theorem classify_number {c : Char} {s : List Char} (h : isDigit c = true) :
    classify ft (c :: s) = (exprParseNumber ft (c :: s)).map fun num => .atom (.const num) := by
  have hopen : c ≠ '(' := by rintro rfl; simp [isDigit_iff] at h
  have hclose : c ≠ ')' := by rintro rfl; simp [isDigit_iff] at h
  have hop : exprOp (c :: s) none = .unknown := exprOp_eq_unknown (by simp [OpText, h])
  cases hnum : exprParseNumber ft (c :: s) with
  | none => simp [classify, hopen, hclose, hnum, hop, h]
  | some num => simp [classify, hopen, hclose, hnum]

/-! ## The order of the tokens -/

/-- The flags where the parser expects `e`; after a `word` a parenthesis is
allowed as well. -/
def Fits (flags : Flags) (word : Bool) : Expect → Prop
  | .operand => flags =
      { Flags.none with topen := true, tnumber := true, tword := true, unary := flags.unary }
  | .opened => flags =
      { Flags.none with topen := true, tnumber := true, tword := true, tclose := true }
  | .operator => flags = { Flags.none with top := true, tclose := true, topen := word }

/-- The name of a variable or a function. -/
def wordOf : Tok F → List Char
  | .atom (.var name) => name
  | _ => []

def IsWord (k : Tok F) : Bool := wordOf k != []

/-- The text of a token. -/
def Spelt (tok : List Char) : Tok F → Prop
  | .atom (.const num) => exprParseNumber ft tok = some num
  | .atom (.var name) => tok = name ∧ name.head?.any isFirstVarChr
  | .atom _ => False
  | .op (.unary op) => tok = unaryText op
  | .op (.binary op) => tok = binaryText op
  | .opening => tok = ['(']
  | .closing => tok = [')']

/-- The token `k`, spelt `tok`, may come where `e` is expected, and then the
flags are `flags`; or it is the parenthesis of a call. -/
def Follows (e : Expect) (word : Bool) (flags : Flags) (tok : List Char) (k : Tok F) : Prop :=
  Spelt ft tok k ∧
    ((∃ e', expect e k = some e' ∧ Fits flags (IsWord k) e') ∨
      e = .operator ∧ word = true ∧ k = .opening ∧ Fits flags false .opened)

variable {e : Expect} {word : Bool} {flags : Flags}

theorem Fits.comma (h : Fits flags word e) : flags.comma = false := by
  cases e <;> simp only [Fits] at h <;> rw [h] <;> rfl

theorem Fits.eq_operator (h : Fits flags word e) (htop : flags.top = true) : e = .operator := by
  cases e with
  | operator => rfl
  | operand | opened =>
      rw [h] at htop
      cases htop

theorem Fits.ne_operator (h : Fits flags word e)
    (hoperand : flags.top = false ∨ flags.tnumber = true ∨ flags.tword = true) :
    e ≠ .operator := by
  rintro rfl
  rw [h] at hoperand
  simp [Flags.none] at hoperand

theorem expect_atom (he : e ≠ .operator) (x : Expr F) :
    expect e (.atom x : Tok F) = some .operator := by
  cases e with
  | operator => exact absurd rfl he
  | operand | opened => rfl

theorem expect_unary (he : e ≠ .operator) (op : UnaryOp) :
    expect e (.op (.unary op) : Tok F) = some .operand := by
  cases e with
  | operator => exact absurd rfl he
  | operand | opened => rfl

theorem take_takeWhile {α : Type} (p : α → Bool) (s : List α) :
    s.take (s.takeWhile p).length = s.takeWhile p :=
  (List.prefix_iff_eq_take.mp (List.takeWhile_prefix p)).symm

/-- A token that is not rewritten. -/
theorem rewriteToken_eq_self {tok : List Char} (hunary : flags.unary = false)
    (hcomma : flags.comma = false) : rewriteToken tok flags = some (tok, flags) := by
  simp [rewriteToken, hunary, hcomma]

/-- A blank token leaves the flags alone, or is the single space that a unary
operator does not allow. -/
theorem rewriteToken_blank {c : Char} {tok tok' : List Char} {flags' : Flags}
    (hc : isSpace c = true) (hcomma : flags.comma = false)
    (h : rewriteToken (c :: tok) flags = some (tok', flags')) :
    tok' = c :: tok ∧ flags' = flags := by
  have hops : c ≠ '-' ∧ c ≠ '^' ∧ c ≠ '!' := by
    refine ⟨?_, ?_, ?_⟩ <;> (rintro rfl; simp [isSpace] at hc)
  unfold rewriteToken at h
  split at h
  · simp [hops] at h
  · simpa [hcomma, eq_comm] using h

/-! ## The branches of the lexer -/

theorem toNat_eq_iff {c d : Char} : c.toNat = d.toNat ↔ c = d :=
  ⟨fun h => Char.toNat_inj.mp h, fun h => h ▸ rfl⟩

theorem isSpace_iff {c : Char} :
    isSpace c = true ↔ c.toNat = 32 ∨ 9 ≤ c.toNat ∧ c.toNat ≤ 13 := by
  simp only [isSpace, Bool.or_eq_true, beq_iff_eq, ← toNat_eq_iff]
  have h32 : ' '.toNat = 32 := rfl
  have h10 : '\n'.toNat = 10 := rfl
  have h9 : '\t'.toNat = 9 := rfl
  have h13 : '\r'.toNat = 13 := rfl
  omega

theorem not_isSpace_of_isDigit {c : Char} (h : isDigit c = true) : isSpace c = false := by
  rw [isDigit_iff] at h
  rw [Bool.eq_false_iff, Ne, isSpace_iff]
  omega

theorem not_isSpace_of_isFirstVarChr {c : Char} (h : isFirstVarChr c = true) :
    isSpace c = false := by
  rw [Bool.eq_false_iff, Ne, isSpace_iff]
  rcases isFirstVarChr_iff.mp h with ⟨h, _⟩ | rfl
  · omega
  · decide

theorem exprNextToken_blank {c : Char} (s : List Char) (hc : isSpace c = true) (hn : c ≠ '\n') :
    exprNextToken (c :: s) flags =
      some (((c :: s).takeWhile fun c => isSpace c && c != '\n').length, flags) := by
  have hcomment : c ≠ '#' := by rintro rfl; simp [isSpace] at hc
  simp only [exprNextToken, hcomment, hn, hc, if_true, if_false]

theorem exprNextToken_digit {c : Char} (s : List Char) (hc : isDigit c = true) :
    exprNextToken (c :: s) flags =
      if !flags.tnumber then none
      else some (((c :: s).takeWhile fun c => c == '.' || isDigit c).length,
        { Flags.none with top := true, tclose := true }) := by
  have hcomment : c ≠ '#' := by rintro rfl; simp [isDigit_iff] at hc
  have hn : c ≠ '\n' := by rintro rfl; simp [isDigit_iff] at hc
  simp only [exprNextToken, hcomment, hn, not_isSpace_of_isDigit hc, hc, if_true, if_false,
    Bool.false_eq_true]

theorem exprNextToken_word {c : Char} (s : List Char) (hc : isFirstVarChr c = true) :
    exprNextToken (c :: s) flags =
      if !flags.tword then none
      else some (((c :: s).takeWhile isVarChr).length,
        { Flags.none with top := true, topen := true, tclose := true }) := by
  have hcomment : c ≠ '#' := ne_of_isFirstVarChr hc (by decide)
  have hn : c ≠ '\n' := ne_of_isFirstVarChr hc (by decide)
  simp only [exprNextToken, hcomment, hn, not_isSpace_of_isFirstVarChr hc,
    isDigit_of_isFirstVarChr hc, hc, if_true, if_false, Bool.false_eq_true]

theorem exprNextToken_open (s : List Char) :
    exprNextToken ('(' :: s) flags =
      if flags.topen then
        some (1, { Flags.none with tnumber := true, tword := true, topen := true, tclose := true })
      else none := by
  have hspace : isSpace '(' = false := by decide
  have hdigit : isDigit '(' = false := by decide
  have hword : isFirstVarChr '(' = false := by decide
  simp [exprNextToken, hspace, hdigit, hword]

theorem exprNextToken_close (s : List Char) :
    exprNextToken (')' :: s) flags =
      if flags.tclose then some (1, { Flags.none with top := true, tclose := true }) else none := by
  have hspace : isSpace ')' = false := by decide
  have hdigit : isDigit ')' = false := by decide
  have hword : isFirstVarChr ')' = false := by decide
  simp [exprNextToken, hspace, hdigit, hword]

/-- A character of an operator, or one that no token starts with. -/
def IsOpChr (c : Char) : Prop :=
  isSpace c = false ∧ isDigit c = false ∧ isFirstVarChr c = false ∧ c ≠ '#' ∧ c ≠ '(' ∧ c ≠ ')'

instance (c : Char) : Decidable (IsOpChr c) := inferInstanceAs (Decidable (_ ∧ _))

theorem exprNextToken_op {c : Char} (s : List Char) (hc : IsOpChr c) :
    exprNextToken (c :: s) flags =
      if !flags.top then
        if exprOp [c] (some true) = .unknown then none
        else
          some (1,
            { Flags.none with tnumber := true, tword := true, topen := true, unary := true })
      else
        if !(operatorScan (c :: s) (c :: s) 0 false).2 then none
        else some ((operatorScan (c :: s) (c :: s) 0 false).1,
          { Flags.none with tnumber := true, tword := true, topen := true }) := by
  obtain ⟨hspace, hdigit, hword, hcomment, hopen, hclose⟩ := hc
  have hn : c ≠ '\n' := by rintro rfl; exact absurd hspace (by decide)
  simp only [exprNextToken, hcomment, hn, hspace, hdigit, hword, hopen, hclose, if_false,
    Bool.false_eq_true, or_self]

/-- The operator that the scan ends with. -/
theorem operatorScan_found {s rest : List Char} {i n : ℕ} {found : Bool}
    (hfound : found = true → 0 < i ∧ exprOp (s.take i) (some false) ≠ .unknown)
    (h : operatorScan s rest i found = (n, true)) :
    0 < n ∧ exprOp (s.take n) (some false) ≠ .unknown := by
  induction rest generalizing i found with
  | nil =>
      cases h
      exact hfound rfl
  | cons c rest ih =>
      rw [operatorScan] at h
      split at h
      · cases h
        exact hfound rfl
      · split at h
        · rename_i hop
          exact ih (fun _ => ⟨Nat.succ_pos i, hop⟩) h
        · split at h
          · rename_i hf
            cases h
            exact hfound hf
          · exact ih (by simp) h

/-! ## One token -/

theorem rewriteToken_newline (tok : List Char) :
    rewriteToken ('\n' :: tok)
      { Flags.none with tnumber := true, tword := true, topen := true, comma := true } =
      some ([','], { Flags.none with tnumber := true, tword := true, topen := true }) := by
  simp only [rewriteToken, Flags.none, Bool.false_eq_true, false_and, if_false, List.head?_cons,
    and_self, if_true]

theorem rewriteToken_unary {tok : List Char} (h : tok = ['-'] ∨ tok = ['^'] ∨ tok = ['!'])
    (hunary : flags.unary = true) : rewriteToken tok flags = some (tok ++ ['u'], flags) := by
  have hlen : tok.length = 1 := by rcases h with rfl | rfl | rfl <;> rfl
  rw [rewriteToken, if_pos ⟨hunary, hlen⟩, if_pos h]

/-- What the lexer and the parser make of the next token: blank, with the flags
as before, or a token that may follow. -/
def Lexed (e : Expect) (word : Bool) (flags : Flags) (tok : List Char) : Prop :=
  (tok.head?.map isSpace).getD false = true ∧ Fits flags word e ∨
    (tok.head?.map isSpace).getD false = false ∧
      ∀ k, classify ft tok = some k → Follows ft e word flags tok k

variable {ft} {s tok : List Char} {n : ℕ} {flags' flags'' : Flags}

theorem lexed_blank {c : Char} (hfits : Fits flags word e) (hc : isSpace c = true) (hn : c ≠ '\n')
    (hnext : exprNextToken (c :: s) flags = some (n, flags'))
    (hre : rewriteToken ((c :: s).take n) flags' = some (tok, flags'')) :
    0 < n ∧ Lexed ft e word flags'' tok := by
  rw [exprNextToken_blank s hc hn, Option.some.injEq, Prod.mk.injEq] at hnext
  obtain ⟨rfl, rfl⟩ := hnext
  rw [take_takeWhile, List.takeWhile_cons_of_pos (by simp [hc, hn])] at hre
  obtain ⟨rfl, rfl⟩ := rewriteToken_blank hc hfits.comma hre
  refine ⟨?_, Or.inl ⟨by simp [hc], hfits⟩⟩
  rw [List.takeWhile_cons_of_pos (by simp [hc, hn])]
  simp

/-- A line end is a comma where an operator is expected and the text goes on. -/
theorem lexed_newline (hfits : Fits flags word e)
    (hnext : exprNextToken ('\n' :: s) flags = some (n, flags'))
    (hre : rewriteToken (('\n' :: s).take n) flags' = some (tok, flags'')) :
    0 < n ∧ Lexed ft e word flags'' tok := by
  have hspace : isSpace '\n' = true := by decide
  have hcomment : '\n' ≠ '#' := by decide
  simp only [exprNextToken, hcomment, if_false, if_true, Option.some.injEq, Prod.mk.injEq] at hnext
  obtain ⟨rfl, hflags⟩ := hnext
  refine ⟨by rw [List.takeWhile_cons_of_pos hspace]; simp, ?_⟩
  rw [take_takeWhile, List.takeWhile_cons_of_pos hspace] at hre
  have hself : { flags with comma := false } = flags := by
    have hcomma := hfits.comma
    cases flags
    exact congrArg _ hcomma.symm
  rw [hself] at hflags
  split at hflags
  · rename_i htop
    split at hflags
    · subst hflags
      obtain ⟨rfl, rfl⟩ := rewriteToken_blank hspace hfits.comma hre
      exact Or.inl ⟨by simp [hspace], hfits⟩
    · subst hflags
      rw [rewriteToken_newline, Option.some.injEq, Prod.mk.injEq] at hre
      obtain ⟨rfl, rfl⟩ := hre
      obtain rfl := hfits.eq_operator htop
      refine Or.inr ⟨by decide, fun k hk => ?_⟩
      obtain rfl : k = .op (.binary .comma) :=
        Option.some.inj (hk.symm.trans (classify_binaryText ft .comma))
      exact ⟨rfl, Or.inl ⟨.operand, rfl, rfl⟩⟩
  · subst hflags
    obtain ⟨rfl, rfl⟩ := rewriteToken_blank hspace hfits.comma hre
    exact Or.inl ⟨by simp [hspace], hfits⟩

theorem lexed_digit {c : Char} (hfits : Fits flags word e) (hc : isDigit c = true)
    (hnext : exprNextToken (c :: s) flags = some (n, flags'))
    (hre : rewriteToken ((c :: s).take n) flags' = some (tok, flags'')) :
    0 < n ∧ Lexed ft e word flags'' tok := by
  rw [exprNextToken_digit s hc] at hnext
  split at hnext
  · cases hnext
  · rename_i hnumber
    obtain ⟨rfl, rfl⟩ := Prod.mk.inj (Option.some.inj hnext)
    rw [take_takeWhile, rewriteToken_eq_self rfl rfl, List.takeWhile_cons_of_pos (by simp [hc]),
      Option.some.injEq, Prod.mk.injEq] at hre
    obtain ⟨rfl, rfl⟩ := hre
    refine ⟨by rw [List.takeWhile_cons_of_pos (by simp [hc])]; simp, Or.inr ⟨?_, fun k hk => ?_⟩⟩
    · simp [not_isSpace_of_isDigit hc]
    · rw [classify_number ft hc] at hk
      obtain ⟨num, hnum, rfl⟩ := Option.map_eq_some_iff.mp hk
      have he := hfits.ne_operator (Or.inr (Or.inl (by simpa using hnumber)))
      exact ⟨hnum, Or.inl ⟨.operator, expect_atom he _, rfl⟩⟩

theorem lexed_word {c : Char} (hfits : Fits flags word e) (hc : isFirstVarChr c = true)
    (hnext : exprNextToken (c :: s) flags = some (n, flags'))
    (hre : rewriteToken ((c :: s).take n) flags' = some (tok, flags'')) :
    0 < n ∧ Lexed ft e word flags'' tok := by
  have hvar : isVarChr c = true := by
    simp only [isFirstVarChr, isVarChr, Bool.or_eq_true] at hc ⊢
    tauto
  rw [exprNextToken_word s hc] at hnext
  split at hnext
  · cases hnext
  · rename_i hword
    obtain ⟨rfl, rfl⟩ := Prod.mk.inj (Option.some.inj hnext)
    rw [take_takeWhile, rewriteToken_eq_self rfl rfl, List.takeWhile_cons_of_pos hvar,
      Option.some.injEq, Prod.mk.injEq] at hre
    obtain ⟨rfl, rfl⟩ := hre
    refine ⟨by rw [List.takeWhile_cons_of_pos hvar]; simp, Or.inr ⟨?_, fun k hk => ?_⟩⟩
    · simp [not_isSpace_of_isFirstVarChr hc]
    · rw [classify_word ft hc, Option.some.injEq] at hk
      subst hk
      have he := hfits.ne_operator (Or.inr (Or.inr (by simpa using hword)))
      exact ⟨⟨rfl, by simp [hc]⟩, Or.inl ⟨.operator, expect_atom he _, rfl⟩⟩

theorem classify_open : classify ft ['('] = some .opening := rfl

theorem classify_close : classify ft [')'] = some .closing := rfl

theorem lexed_open (hfits : Fits flags word e)
    (hnext : exprNextToken ('(' :: s) flags = some (n, flags'))
    (hre : rewriteToken (('(' :: s).take n) flags' = some (tok, flags'')) :
    0 < n ∧ Lexed ft e word flags'' tok := by
  rw [exprNextToken_open] at hnext
  split at hnext
  · rename_i hopen
    obtain ⟨rfl, rfl⟩ := Prod.mk.inj (Option.some.inj hnext)
    rw [rewriteToken_eq_self rfl rfl, List.take_succ_cons, List.take_zero, Option.some.injEq,
      Prod.mk.injEq] at hre
    obtain ⟨rfl, rfl⟩ := hre
    refine ⟨by simp, Or.inr ⟨by decide, fun k hk => ?_⟩⟩
    obtain rfl : k = .opening := Option.some.inj (hk.symm.trans classify_open)
    refine ⟨rfl, ?_⟩
    cases e with
    | operand | opened => exact Or.inl ⟨.opened, rfl, rfl⟩
    | operator =>
        refine Or.inr ⟨rfl, ?_, rfl, rfl⟩
        simp only [Fits] at hfits
        rw [hfits] at hopen
        exact hopen
  · cases hnext

theorem lexed_close (hfits : Fits flags word e)
    (hnext : exprNextToken (')' :: s) flags = some (n, flags'))
    (hre : rewriteToken ((')' :: s).take n) flags' = some (tok, flags'')) :
    0 < n ∧ Lexed ft e word flags'' tok := by
  rw [exprNextToken_close] at hnext
  split at hnext
  · rename_i hclose
    obtain ⟨rfl, rfl⟩ := Prod.mk.inj (Option.some.inj hnext)
    rw [rewriteToken_eq_self rfl rfl, List.take_succ_cons, List.take_zero, Option.some.injEq,
      Prod.mk.injEq] at hre
    obtain ⟨rfl, rfl⟩ := hre
    refine ⟨by simp, Or.inr ⟨by decide, fun k hk => ?_⟩⟩
    obtain rfl : k = .closing := Option.some.inj (hk.symm.trans classify_close)
    refine ⟨rfl, Or.inl ?_⟩
    cases e with
    | operand =>
        simp only [Fits] at hfits
        rw [hfits] at hclose
        cases hclose
    | opened | operator => exact ⟨.operator, rfl, rfl⟩
  · cases hnext

theorem lexed_op {c : Char} (hfits : Fits flags word e) (hc : IsOpChr c)
    (hnext : exprNextToken (c :: s) flags = some (n, flags'))
    (hre : rewriteToken ((c :: s).take n) flags' = some (tok, flags'')) :
    0 < n ∧ Lexed ft e word flags'' tok := by
  rw [exprNextToken_op s hc] at hnext
  split at hnext
  · rename_i htop
    split at hnext
    · cases hnext
    · rename_i hop
      obtain ⟨rfl, rfl⟩ := Prod.mk.inj (Option.some.inj hnext)
      obtain ⟨op, htext, hcases⟩ := exprOp_of_unary hop rfl
      rw [List.take_succ_cons, List.take_zero, rewriteToken_unary hcases rfl, htext,
        Option.some.injEq, Prod.mk.injEq] at hre
      obtain ⟨rfl, rfl⟩ := hre
      refine ⟨Nat.one_pos, Or.inr ⟨by cases op <;> decide, fun k hk => ?_⟩⟩
      rw [classify_unaryText, Option.some.injEq] at hk
      subst hk
      have he := hfits.ne_operator (Or.inl (by simpa using htop))
      exact ⟨rfl, Or.inl ⟨.operand, expect_unary he op, rfl⟩⟩
  · rename_i htop
    obtain rfl := hfits.eq_operator (by simpa using htop)
    cases hscan : operatorScan (c :: s) (c :: s) 0 false with
    | mk i found =>
        rw [hscan] at hnext
        cases found with
        | false => cases hnext
        | true =>
            obtain ⟨rfl, rfl⟩ := Prod.mk.inj (Option.some.inj hnext)
            obtain ⟨hpos, hop⟩ := operatorScan_found (by simp) hscan
            obtain ⟨op, hop⟩ := exprOp_of_binary hop
            rw [rewriteToken_eq_self rfl rfl, Option.some.injEq, Prod.mk.injEq, hop] at hre
            obtain ⟨rfl, rfl⟩ := hre
            refine ⟨hpos, Or.inr ⟨by cases op <;> decide, fun k hk => ?_⟩⟩
            rw [classify_binaryText, Option.some.injEq] at hk
            subst hk
            exact ⟨rfl, Or.inl ⟨.operand, rfl, rfl⟩⟩

theorem lexed {c : Char} (hfits : Fits flags word e) (hc : c ≠ '#')
    (hnext : exprNextToken (c :: s) flags = some (n, flags'))
    (hre : rewriteToken ((c :: s).take n) flags' = some (tok, flags'')) :
    0 < n ∧ Lexed ft e word flags'' tok := by
  by_cases hn : c = '\n'
  · subst hn
    exact lexed_newline hfits hnext hre
  by_cases hspace : isSpace c = true
  · exact lexed_blank hfits hspace hn hnext hre
  by_cases hdigit : isDigit c = true
  · exact lexed_digit hfits hdigit hnext hre
  by_cases hword : isFirstVarChr c = true
  · exact lexed_word hfits hword hnext hre
  by_cases hopen : c = '('
  · subst hopen
    exact lexed_open hfits hnext hre
  by_cases hclose : c = ')'
  · subst hclose
    exact lexed_close hfits hnext hre
  · refine lexed_op hfits ⟨?_, ?_, ?_, hc, hopen, hclose⟩ hnext hre <;> simp_all

end EceLib.Rule
