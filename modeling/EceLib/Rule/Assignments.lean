import EceLib.Rule.Eval
import EceLib.Rule.Spelling

/-!
# Assignments before a rule

A rule is evaluated behind assignments of numbers to variables, each followed by
a comma.  The text is read as a whole, or not at all if a number is missing.
-/

namespace EceLib.Rule

open Support Support.Precedence

variable {F : Type} (ft : Target F)

/-! ## Decimal numbers -/

/-- The number that digits are read as. -/
def decimalValue (digits : List Char) : F :=
  digits.foldl
    (fun num c => ft.add (ft.mul num (ft.ofInt 10)) (ft.ofInt (c.toNat - '0'.toNat))) (ft.ofInt 0)

variable {ft}

theorem parseDigits_of_digits {digits : List Char} (h : ∀ c ∈ digits, isDigit c = true) (num : F) :
    parseDigits ft digits num 0 =
      some (digits.foldl
        (fun num c => ft.add (ft.mul num (ft.ofInt 10)) (ft.ofInt (c.toNat - '0'.toNat))) num,
        0) := by
  induction digits generalizing num with
  | nil => rfl
  | cons c digits ih =>
      have hc : isDigit c = true := h c (by simp)
      have hdot : c ≠ '.' := by rintro rfl; simp [isDigit_iff] at hc
      rw [parseDigits, if_neg (by simp [hdot]), if_pos hc, if_neg (by simp),
        ih fun c hc => h c (by simp [hc])]
      rfl

theorem written_digits {digits : List Char} (hne : digits ≠ [])
    (h : ∀ c ∈ digits, isDigit c = true) :
    Written ft digits (.atom (.const (decimalValue ft digits))) := by
  obtain ⟨c, rest, rfl⟩ := List.exists_cons_of_ne_nil hne
  refine ⟨by simpa using h c (by simp), fun c hc => Or.inr (h c hc), ?_⟩
  rw [exprParseNumber, parseDigits_of_digits h]
  simp only [Option.bind_some, Nat.zero_sub, Function.iterate_zero, id_eq]
  rw [if_pos (List.any_eq_true.mpr ⟨c, by simp, h c (by simp)⟩)]
  rfl

/-! ## The assignments -/

/-- A variable and the digits it is assigned. -/
structure Assignment where
  name : List Char
  digits : List Char

namespace Assignment

structure NameValid (a : Assignment) : Prop where
  head : a.name.head?.any isFirstVarChr
  all : ∀ c ∈ a.name, isVarChr c = true

/-- The assignment has a name and a number. -/
structure Valid (a : Assignment) : Prop extends a.NameValid where
  ne_nil : a.digits ≠ []
  digit : ∀ c ∈ a.digits, isDigit c = true

def text (a : Assignment) : List Char := a.name ++ ('=' :: (a.digits ++ [',']))

variable (ft) in
def value (a : Assignment) : F := decimalValue ft a.digits

end Assignment

variable (ft) in
/-- The assignments, one after the other, before the tree. -/
def assignSource (as : List Assignment) (t : Source (Expr F) UnaryOp BinaryOp) :
    Source (Expr F) UnaryOp BinaryOp :=
  as.foldr (fun a t => .binary .comma
    (.binary .assign (.atom (.var a.name)) (.atom (.const (a.value ft)))) t) t

variable (ft) in
def assignExpr (as : List Assignment) (x : Expr F) : Expr F :=
  as.foldr (fun a x => .binary .comma
    (.binary .assign (.var a.name) (.const (a.value ft))) x) x

variable {as : List Assignment} {t : Source (Expr F) UnaryOp BinaryOp} {x : Expr F}

theorem reduces_comma (b : BinaryOp) :
    (exprGrammar : Grammar (Expr F) _ _).reduces b (.binary .comma) = false := by
  cases b <;> rfl

theorem wellPrec_assignSource (ht : exprGrammar.WellPrec t) :
    exprGrammar.WellPrec (assignSource ft as t) := by
  induction as with
  | nil => exact ht
  | cons a as ih =>
      refine ⟨⟨trivial, trivial, by simp [Source.rightSpine], by simp [Source.leftSpine]⟩, ih, ?_,
        fun b _ => reduces_comma b⟩
      intro o ho
      obtain rfl : o = .binary .assign := by simpa [Source.rightSpine] using ho
      rfl

theorem value_assignSource (hval : exprGrammar.value t = some x) :
    exprGrammar.value (assignSource ft as t) = some (assignExpr ft as x) := by
  induction as with
  | nil => exact hval
  | cons a as ih =>
      have hrest : exprGrammar.value (assignSource ft as t) = some (assignExpr ft as x) := ih
      simp only [assignSource, assignExpr, List.foldr_cons, Grammar.value,
        Option.bind_some] at hrest ⊢
      rw [hrest]
      rfl

theorem spells_assignSource (has : ∀ a ∈ as, a.Valid) {s : List Char}
    (h : Spells ft false .operand t.tokens s) :
    Spells ft false .operand (assignSource ft as t).tokens (as.flatMap Assignment.text ++ s) := by
  induction as with
  | nil => exact h
  | cons a as ih =>
      have ha := has a (by simp)
      have hnone : Blanks false [] := ⟨by simp, by simp⟩
      have hrest := ih fun a ha => has a (by simp [ha])
      have hcomma : Spells ft false .operator
          (.op (.binary .comma) :: (assignSource ft as t).tokens)
          ([] ++ ([','] ++ (as.flatMap Assignment.text ++ s))) :=
        .cons hnone rfl rfl hrest
      have hnum := Spells.cons hnone (written_digits ha.ne_nil ha.digit)
        (e := .operand) rfl hcomma
      have hassign : Spells ft false .operator _ _ :=
        .cons hnone (k := .op (.binary .assign)) rfl rfl hnum
      have hname : Spells ft false .operand _ _ :=
        .cons hnone (k := .atom (.var a.name)) ⟨rfl, ha.head, ha.all⟩ rfl hassign
      simpa [assignSource, Source.tokens, Assignment.text, Assignment.value, binaryText] using hname

theorem mem_tokens_assignSource {k : Tok F} (h : k ∈ t.tokens) :
    k ∈ (assignSource ft as t).tokens := by
  induction as with
  | nil => exact h
  | cons a as ih =>
      have hrest : k ∈ (assignSource ft as t).tokens := ih
      simp only [assignSource, List.foldr_cons, Source.tokens, List.mem_append,
        List.mem_cons] at hrest ⊢
      exact Or.inr (Or.inr hrest)

/-! ## Evaluation -/

theorem exprEval_assignExpr (vars : VarList F) :
    exprEval ft (assignExpr ft as x) vars =
      exprEval ft x (as.foldl (fun vars a => vars.set a.name (a.value ft)) vars) := by
  induction as generalizing vars with
  | nil => rfl
  | cons a as ih =>
      rw [List.foldl_cons, ← ih]
      simp [assignExpr, exprEval]

theorem get_cons (v : List Char × F) (vars : VarList F) (name : List Char) :
    VarList.get (v :: vars) name = if v.1 = name then some v.2 else vars.get name := by
  by_cases h : v.1 = name
  · simp [VarList.get, h]
  · simp [VarList.get, h]

theorem get_set (vars : VarList F) (name name' : List Char) (n : F) :
    (vars.set name n).get name' =
      if name' = name then (vars.get name').map fun _ => n else vars.get name' := by
  induction vars with
  | nil => simp [VarList.set, VarList.get]
  | cons v vars ih =>
      have hset : VarList.set (v :: vars) name n =
          (if v.1 == name then (name, n) else v) :: VarList.set vars name n := rfl
      rw [hset, get_cons, get_cons, ih]
      by_cases hv : v.1 = name
      · subst hv
        by_cases hname : name' = v.1
        · simp [hname]
        · simp [hname, Ne.symm hname]
      · by_cases hname : name' = name
        · subst hname
          simp [hv]
        · simp [hv, hname]

/-- What was not assigned keeps its value. -/
theorem get_foldl_of_notMem {name : List Char} (h : ∀ a ∈ as, a.name ≠ name) (vars : VarList F) :
    (as.foldl (fun vars a => vars.set a.name (a.value ft)) vars).get name = vars.get name := by
  induction as generalizing vars with
  | nil => rfl
  | cons a as ih =>
      rw [List.foldl_cons, ih fun a ha => h a (by simp [ha]), get_set,
        if_neg (Ne.symm (h a (by simp)))]

theorem get_foldl_of_mem {a : Assignment} (ha : a ∈ as) (hnodup : (as.map Assignment.name).Nodup)
    {vars : VarList F} (hvar : (vars.get a.name).isSome) :
    (as.foldl (fun vars a => vars.set a.name (a.value ft)) vars).get a.name =
      some (a.value ft) := by
  induction as generalizing vars with
  | nil => simp at ha
  | cons b as ih =>
      rw [List.map_cons, List.nodup_cons] at hnodup
      rw [List.foldl_cons]
      rcases List.mem_cons.mp ha with rfl | ha
      · rw [get_foldl_of_notMem fun b hb heq => hnodup.1 (List.mem_map.mpr ⟨b, hb, heq⟩), get_set,
          if_pos rfl]
        obtain ⟨v, hv⟩ := Option.isSome_iff_exists.mp hvar
        rw [hv]
        rfl
      · refine ih ha hnodup.2 ?_
        rw [get_set]
        split <;> simpa using hvar

/-! ## The variables of a text -/

theorem exprVar_get {name : List Char} {vars vars' : VarList F}
    (h : exprVar ft vars name = some vars') (name' : List Char) :
    vars'.get name' =
      if name' = name then some ((vars.get name).getD (ft.ofInt 0)) else vars.get name' := by
  cases name with
  | nil => cases h
  | cons c s =>
      rw [exprVar] at h
      split at h
      · cases h
      · split at h
        · rename_i hany
          cases h
          obtain ⟨v, hv, heq⟩ := List.any_eq_true.mp hany
          by_cases hname : name' = c :: s
          · subst hname
            have hsome : (vars.find? fun v => v.1 == c :: s).isSome :=
              List.find?_isSome.mpr ⟨v, hv, heq⟩
            obtain ⟨w, hw⟩ := Option.isSome_iff_exists.mp hsome
            simp [VarList.get, hw]
          · simp [hname]
        · rename_i hany
          cases h
          have hnone : vars.get (c :: s) = none := by
            simp only [List.any_eq_true, not_exists, not_and, beq_iff_eq] at hany
            simpa [VarList.get] using hany
          rw [get_cons]
          by_cases hname : name' = c :: s
          · subst hname
            simp [hnone]
          · simp [hname, Ne.symm hname]

theorem declare_cons (vars : VarList F) (k : Tok F) (ts : List (Tok F)) :
    declare ft vars (k :: ts) = declare ft (declare ft vars [k]) ts := rfl

theorem get_declare_of_some {ts : List (Tok F)} {name : List Char} {v : F} {vars : VarList F}
    (h : vars.get name = some v) : (declare ft vars ts).get name = some v := by
  induction ts generalizing vars with
  | nil => exact h
  | cons k ts ih =>
      rw [declare_cons]
      refine ih ?_
      match k with
      | .atom (.var name') =>
          change ((exprVar ft vars name').getD vars).get name = some v
          cases hvar : exprVar ft vars name' with
          | none => exact h
          | some vars' =>
              rw [Option.getD_some, exprVar_get hvar]
              split
              · next heq =>
                subst heq
                simp [h]
              · exact h
      | .atom (.const _) | .atom (.unary _ _) | .atom (.binary _ _ _) | .op _ | .opening
      | .closing => exact h

/-- The words of a text are variables; a new one is 0. -/
theorem get_declare {ts : List (Tok F)} {name : List Char} (hname : name.head?.any isFirstVarChr)
    (hmem : .atom (.var name) ∈ ts) (vars : VarList F) (hvars : vars.get name = none) :
    (declare ft vars ts).get name = some (ft.ofInt 0) := by
  induction ts generalizing vars with
  | nil => simp at hmem
  | cons k ts ih =>
      rw [declare_cons]
      by_cases hk : k = .atom (.var name)
      · subst hk
        obtain ⟨vars', hvar⟩ := Option.isSome_iff_exists.mp
          (exprVar_isSome vars hname)
        refine get_declare_of_some ?_
        change ((exprVar ft vars name).getD vars).get name = _
        rw [hvar, Option.getD_some, exprVar_get hvar, if_pos rfl, hvars]
        rfl
      · have hmem' : .atom (.var name) ∈ ts := (List.mem_cons.mp hmem).resolve_left (Ne.symm hk)
        refine ih hmem' _ ?_
        match k with
        | .atom (.var name') =>
            have hne : name ≠ name' := by rintro rfl; exact hk rfl
            change ((exprVar ft vars name').getD vars).get name = none
            cases hvar : exprVar ft vars name' with
            | none => exact hvars
            | some vars' => rw [Option.getD_some, exprVar_get hvar, if_neg hne, hvars]
        | .atom (.const _) | .atom (.unary _ _) | .atom (.binary _ _ _) | .op _ | .opening
        | .closing => exact hvars

/-! ## A missing number -/

theorem Assignment.NameValid.starts {a : Assignment} (h : a.NameValid) :
    ∃ c rest, a.name = c :: rest ∧ isVarChr c = true := by
  have hhead := h.head
  cases hname : a.name with
  | nil => simp [hname] at hhead
  | cons c rest => exact ⟨c, rest, rfl, h.all c (by simp [hname])⟩

variable {flags : Flags} {word : Bool} {s : List Char}

/-- The name of an assignment and its sign are read. -/
theorem exprTokens_name {a : Assignment} (ha : a.NameValid) (hfits : Fits flags word .operand)
    (hs : NoOperator s) (fuel : ℕ) :
    ∃ flags', Fits flags' false .operand ∧ flags'.unary = false ∧
      exprTokens ft (fuel + 2) (a.name ++ ('=' :: s)) flags =
        (exprTokens ft fuel s flags').map fun ts =>
          .atom (.var a.name) :: .op (.binary .assign) :: ts := by
  have hstop : Stop ('=' :: s) := by
    intro c hc
    obtain rfl : '=' = c := by simpa using hc
    decide
  obtain ⟨flags₁, hfits₁, _, hread₁⟩ := exprTokens_written (fuel + 1) hfits
    (k := .atom (.var a.name)) ⟨rfl, ha.head, ha.all⟩ rfl hstop
  obtain ⟨flags₂, hfits₂, hunary₂, hread₂⟩ := exprTokens_written fuel hfits₁
    (k := .op (.binary .assign)) rfl rfl hs
  refine ⟨flags₂, hfits₂, hunary₂, ?_⟩
  have hread₂' : exprTokens ft (fuel + 1) ('=' :: s) flags₁ =
      (exprTokens ft fuel s flags₂).map (.op (.binary .assign) :: ·) := hread₂
  rw [hread₁, hread₂', Option.map_map]
  rfl

/-- A whole assignment is read. -/
theorem exprTokens_assignment {a : Assignment} (ha : a.Valid) (hfits : Fits flags word .operand)
    (hs : NoOperator s) (fuel : ℕ) :
    ∃ flags' ts', Fits flags' false .operand ∧
      exprTokens ft (fuel + 4) (a.text ++ s) flags =
        (exprTokens ft fuel s flags').map (ts' ++ ·) := by
  obtain ⟨d, ds, hdigits⟩ := List.exists_cons_of_ne_nil ha.ne_nil
  have hd : isDigit d = true := ha.digit d (by simp [hdigits])
  have hnoop : NoOperator (a.digits ++ ([','] ++ s)) := by
    intro c hc
    obtain rfl : d = c := by simpa [hdigits] using hc
    exact Or.inl (isVarChr_iff.mpr (Or.inr (Or.inr hd)))
  have hstop : Stop ([','] ++ s) := by
    intro c hc
    obtain rfl : ',' = c := by simpa using hc
    decide
  obtain ⟨flags₁, hfits₁, _, hread₁⟩ := exprTokens_name ha.toNameValid hfits hnoop
    (fuel + 2)
  obtain ⟨flags₂, hfits₂, _, hread₂⟩ := exprTokens_written (fuel + 1) hfits₁
    (written_digits ha.ne_nil ha.digit) rfl hstop
  obtain ⟨flags₃, hfits₃, _, hread₃⟩ := exprTokens_written fuel hfits₂
    (k := .op (.binary .comma)) (show Written ft [','] _ from rfl) rfl hs
  refine ⟨flags₃, [.atom (.var a.name), .op (.binary .assign),
    .atom (.const (decimalValue ft a.digits)), .op (.binary .comma)], hfits₃, ?_⟩
  have htext : a.text ++ s = a.name ++ ('=' :: (a.digits ++ ([','] ++ s))) := by
    simp [Assignment.text]
  rw [htext, hread₁, hread₂, hread₃, Option.map_map, Option.map_map]
  rfl

/-- Nothing is read where a number is missing. -/
theorem exprTokens_no_digits {a : Assignment} (ha : a.NameValid) (hdigits : a.digits = [])
    (hfits : Fits flags word .operand) (fuel : ℕ) :
    exprTokens ft (fuel + 3) (a.text ++ s) flags = none := by
  have hnoop : NoOperator (',' :: s) := by
    intro c hc
    obtain rfl : ',' = c := by simpa using hc
    simp
  obtain ⟨flags₁, hfits₁, _, hread₁⟩ := exprTokens_name ha hfits hnoop (fuel + 1)
  have htext : a.text ++ s = a.name ++ ('=' :: (',' :: s)) := by
    simp [Assignment.text, hdigits]
  have hchr : IsOpChr ',' := by decide
  have hop : exprOp [','] (some true) = .unknown := by decide
  have htop : flags₁.top = false := by rw [hfits₁]; rfl
  rw [htext, hread₁, exprTokens, exprNextToken_op s hchr, htop, Bool.not_false, if_pos rfl,
    if_pos hop]
  rfl

theorem noOperator_texts {as : List Assignment} (has : ∀ a ∈ as, a.NameValid)
    (hs : NoOperator s) : NoOperator (as.flatMap Assignment.text ++ s) := by
  cases as with
  | nil => exact hs
  | cons a as =>
      obtain ⟨c, rest, hname, hc⟩ := (has a (by simp)).starts
      intro d hd
      obtain rfl : c = d := by simpa [Assignment.text, hname] using hd
      exact Or.inl hc

theorem length_text (a : Assignment) :
    a.text.length = a.name.length + a.digits.length + 2 := by
  simp only [Assignment.text, List.length_append, List.length_cons, List.length_nil]
  omega

theorem exprTokens_of_missing {as : List Assignment} {fuel : ℕ} (has : ∀ a ∈ as, a.NameValid)
    (hdigit : ∀ a ∈ as, ∀ c ∈ a.digits, isDigit c = true) (hmissing : ∃ a ∈ as, a.digits = [])
    (hs : NoOperator s) (hfuel : (as.flatMap Assignment.text ++ s).length ≤ fuel)
    (hfits : Fits flags word .operand) :
    exprTokens ft fuel (as.flatMap Assignment.text ++ s) flags = none := by
  induction as generalizing fuel flags word with
  | nil => simp at hmissing
  | cons a as ih =>
      have ha := has a (by simp)
      have has' : ∀ a ∈ as, a.NameValid := fun a ha => has a (by simp [ha])
      have hlen := length_text a
      obtain ⟨c, rest, hname, _⟩ := ha.starts
      rw [hname, List.length_cons] at hlen
      rw [List.flatMap_cons, List.append_assoc, List.length_append] at hfuel
      rw [List.flatMap_cons, List.append_assoc]
      by_cases hnil : a.digits = []
      · obtain ⟨n, rfl⟩ := Nat.exists_eq_add_of_le' (show 3 ≤ fuel by omega)
        exact exprTokens_no_digits ha hnil hfits n
      · have hpos := List.length_pos_of_ne_nil hnil
        obtain ⟨n, rfl⟩ := Nat.exists_eq_add_of_le' (show 4 ≤ fuel by omega)
        obtain ⟨flags', ts', hfits', hread⟩ := exprTokens_assignment
          ⟨ha, hnil, hdigit a (by simp)⟩ hfits (noOperator_texts has' hs) n
        have hmissing' : ∃ a ∈ as, a.digits = [] := by
          obtain ⟨b, hb, hbnil⟩ := hmissing
          rcases List.mem_cons.mp hb with rfl | hb
          · exact absurd hbnil hnil
          · exact ⟨b, hb, hbnil⟩
        rw [hread, ih has' (fun a ha => hdigit a (by simp [ha])) hmissing' (by omega) hfits']
        rfl

end EceLib.Rule
