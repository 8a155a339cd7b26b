import EceLib.Support.HexText
import EceLib.Rule.Assignments
import EceLib.Edge.RuleText
import EceLib.Edge.ValueStore

/-!
# The verdict of the rules

`check_rule_engine` reads its text with `expr.h`.  The texts of the attributes
are decimal numbers or empty, in every run, so that the rule compares the sum of
three attributes; or the text is no expression, because one of them is empty.
-/

namespace EceLib

open Support Support.Precedence Rule

open EdgeState

variable {F : Type} (ft : Target F)

/-! ## The evaluator -/

/-- The number is not within `EPSINON` of 0. -/
def passes (epsinon result : F) : Bool :=
  !(ft.le (ft.neg epsinon) result && ft.le result epsinon)

/-- What `check_rule_engine` makes of its text: `none` for a syntax error.  The
value of the expression is defined, as the operators of the rule need no
conversion to `int`. -/
def ruleVerdict (epsinon : F) (ruleBuf : String) : Option Bool :=
  match exprCreate ft ruleBuf.toList [] with
  | .error _ => none
  | .ok (e, vars) => (exprEval ft e vars).map fun r => passes ft epsinon r.1

/-! ## The rule -/

/-- The name of an attribute. -/
def attrName (topic : UInt32) : List Char := 'a' :: hexPadded 8 topic

def ruleSource : Source (Expr F) UnaryOp BinaryOp :=
  .binary .gt
    (.group (.binary .plus
      (.binary .plus (.atom (.var (attrName 2))) (.atom (.var (attrName 1))))
      (.atom (.var (attrName 3)))))
    (.atom (.const (decimalValue ft ['1'])))

def ruleExpr : Expr F :=
  .binary .gt
    (.binary .plus (.binary .plus (.var (attrName 2)) (.var (attrName 1))) (.var (attrName 3)))
    (.const (decimalValue ft ['1']))

variable {ft}

theorem isVarChr_digitChar {d : ℕ} (hd : d < 16) : isVarChr d.digitChar = true := by
  have hall : ∀ d < 16, isVarChr (Nat.digitChar d) = true := by decide
  exact hall d hd

theorem nameValid_attrName (topic : UInt32) (digits : List Char) :
    Assignment.NameValid ⟨attrName topic, digits⟩ where
  head := rfl
  all c hc := by
    rcases List.mem_cons.mp hc with rfl | hc
    · decide
    · rw [hexPadded, leftpad_toDigits] at hc
      obtain ⟨d, hd, rfl⟩ := List.mem_map.mp hc
      exact isVarChr_digitChar (hexDigits_lt hd)

theorem hexPadded_inj {width : ℕ} {x y : UInt32}
    (h : hexPadded (width + 1) x = hexPadded (width + 1) y) : x = y := by
  rw [hexPadded, hexPadded, leftpad_toDigits, leftpad_toDigits] at h
  have hdigits := map_digitChar_inj (fun d hd => hexDigits_lt hd) (fun d hd => hexDigits_lt hd) h
  refine UInt32.toNat_inj.mp ?_
  rw [← hexNumber_hexDigits (width + 1) x.toNat, hdigits, hexNumber_hexDigits]

theorem attrName_inj {x y : UInt32} : attrName x = attrName y ↔ x = y :=
  ⟨fun h => hexPadded_inj (List.cons.inj h).2, congrArg attrName⟩

theorem wellPrec_ruleSource : exprGrammar.WellPrec (ruleSource ft) := by
  refine ⟨⟨⟨trivial, trivial, ?_, ?_⟩, trivial, ?_, ?_⟩, trivial, ?_, ?_⟩ <;>
    simp [Source.rightSpine, Source.leftSpine, exprGrammar_reduces, opType]
  all_goals decide

theorem value_ruleSource : exprGrammar.value (ruleSource ft) = some (ruleExpr ft) := rfl

theorem spells_ruleSource : Spells ft false .operand (ruleSource ft).tokens ruleFixed.toList := by
  have hnone : ∀ tight, Blanks tight [] := fun tight => ⟨by simp, by simp⟩
  have hblank : Blanks false [' '] := ⟨by decide, by simp⟩
  have hname : ∀ topic, Written ft (attrName topic) (.atom (.var (attrName topic))) := fun topic =>
    ⟨rfl, (nameValid_attrName topic []).head, (nameValid_attrName topic []).all⟩
  have hone : Written ft ['1'] (.atom (.const (decimalValue ft ['1']))) :=
    written_digits (by simp) (by decide)
  have hspells : Spells ft false .operand (ruleSource ft).tokens _ :=
    .cons (hnone _) (k := .opening) rfl rfl <|
    .cons (hnone _) (hname 2) rfl <|
    .cons hblank (k := .op (.binary .plus)) rfl rfl <|
    .cons hblank (hname 1) rfl <|
    .cons hblank (k := .op (.binary .plus)) rfl rfl <|
    .cons hblank (hname 3) rfl <|
    .cons (hnone _) (k := .closing) rfl rfl <|
    .cons (hnone _) (k := .op (.binary .gt)) rfl rfl <|
    .cons (hnone _) hone rfl <|
    .nil (hnone _)
  have htext : ruleFixed.toList = ['('] ++ (attrName 2 ++ ([' '] ++ (['+'] ++ ([' '] ++
      (attrName 1 ++ ([' '] ++ (['+'] ++ ([' '] ++ (attrName 3 ++ ([')'] ++ (['>'] ++
        ['1']))))))))))) := by decide +kernel
  rw [htext]
  exact hspells

/-! ## The value of the rule -/

theorem exprEval_ruleExpr {vars : VarList F} {v₁ v₂ v₃ : F}
    (h₁ : vars.get (attrName 1) = some v₁) (h₂ : vars.get (attrName 2) = some v₂)
    (h₃ : vars.get (attrName 3) = some v₃) :
    exprEval ft (ruleExpr ft) vars =
      some (ofBool ft (ft.lt (decimalValue ft ['1']) (ft.add (ft.add v₂ v₁) v₃)), vars) := by
  have hvar : ∀ topic v, vars.get (attrName topic) = some v →
      exprEval ft (.var (attrName topic)) vars = some (v, vars) := fun topic v h => by
    rw [exprEval, h]
    rfl
  have hplus : exprEval ft (.binary .plus (.var (attrName 2)) (.var (attrName 1))) vars =
      some (ft.add v₂ v₁, vars) := by
    refine Eq.trans (exprEval_of_assignFree rfl ?_ ?_ vars) ?_
    · trivial
    · trivial
    rw [hvar 2 v₂ h₂, hvar 1 v₁ h₁]
    rfl
  have hsum : exprEval ft
      (.binary .plus (.binary .plus (.var (attrName 2)) (.var (attrName 1))) (.var (attrName 3)))
      vars = some (ft.add (ft.add v₂ v₁) v₃, vars) := by
    refine Eq.trans (exprEval_of_assignFree rfl ?_ ?_ vars) ?_
    · exact ⟨by decide, trivial, trivial⟩
    · trivial
    rw [hplus, hvar 3 v₃ h₃]
    rfl
  refine Eq.trans (exprEval_of_assignFree rfl ?_ ?_ vars) ?_
  · exact ⟨by decide, ⟨by decide, trivial, trivial⟩, trivial⟩
  · trivial
  rw [hsum]
  rfl

/-! ## The attributes of a device -/

/-- The text is empty or a decimal number. -/
def DecimalOrEmpty (attr : AttrVal) : Prop := attr.str = "" ∨ ∃ n : ℕ, attr.str = toString n

/-- The assignments of all attributes. -/
def Dev.assignments (dev : Dev) : List Assignment :=
  dev.attrMap.entries.map fun entry => ⟨attrName entry.2.topic, entry.2.str.toList⟩

variable (ft) in
/-- What a variable stands for in the rule: the number of the attribute, or 0. -/
def Dev.ruleValue (dev : Dev) (topic : UInt32) : F :=
  (dev.attrMap.get topic).elim (ft.ofInt 0) fun attr => decimalValue ft attr.str.toList

variable (ft) in
/-- The sum is greater than 1, in the arithmetic of `float`. -/
def Dev.SumExceeds (dev : Dev) : Prop :=
  ft.lt (decimalValue ft ['1'])
    (ft.add (ft.add (dev.ruleValue ft 2) (dev.ruleValue ft 1)) (dev.ruleValue ft 3)) = true

theorem toList_attrValTexts (dev : Dev) :
    (EdgeState.attrValTexts "," dev).toList = dev.assignments.flatMap Assignment.text := by
  have hfold : ∀ (l : List (UInt32 × AttrVal)) (buf : String),
      (l.foldl (fun buf entry => buf ++ EdgeState.attrValText "," entry.2) buf).toList =
        buf.toList ++ (l.map fun entry =>
          (⟨attrName entry.2.topic, entry.2.str.toList⟩ : Assignment)).flatMap Assignment.text := by
    intro l
    induction l with
    | nil => simp
    | cons entry l ih =>
        intro buf
        rw [List.foldl_cons, ih]
        simp [EdgeState.attrValText, Assignment.text, attrName, String.toList_append]
  rw [EdgeState.attrValTexts, hfold]
  rfl

theorem isDigit_toString {n : ℕ} : ∀ c ∈ (toString n).toList, isDigit c = true := by
  intro c hc
  have hmem : c ∈ Nat.toDigits 10 n := by
    change c ∈ n.repr.toList at hc
    rwa [Nat.repr_eq_ofList_toDigits, String.toList_ofList] at hc
  have hdigit := Nat.isDigit_of_mem_toDigits (by decide : 0 < 10) (by decide) hmem
  rw [isDigit_iff]
  simpa [Char.isDigit, UInt32.le_iff_toNat_le] using hdigit

section Device

variable {dev : Dev}

theorem mem_assignments {a : Assignment} :
    a ∈ dev.assignments ↔
      ∃ topic attr, dev.attrMap.get topic = some attr ∧ a = ⟨attrName topic, attr.str.toList⟩ := by
  simp only [Dev.assignments, List.mem_map, Prod.exists, Registry.mem_entries_iff]
  constructor
  · rintro ⟨topic, attr, hget, rfl⟩
    exact ⟨topic, attr, hget, by rw [← Registry.key_of_get hget]; rfl⟩
  · rintro ⟨topic, attr, hget, rfl⟩
    exact ⟨topic, attr, hget, by rw [← Registry.key_of_get hget]; rfl⟩

theorem nodup_assignments (dev : Dev) : (dev.assignments.map Assignment.name).Nodup := by
  have hnames : dev.assignments.map Assignment.name =
      (dev.attrMap.entries.map Prod.fst).map attrName := by
    rw [Dev.assignments, List.map_map, List.map_map]
    refine List.map_congr_left fun entry hentry => ?_
    have hkey : Keyed.key entry.2 = entry.1 :=
      Registry.key_of_get (Registry.mem_entries_iff.mp hentry)
    exact congrArg attrName hkey
  rw [hnames]
  exact dev.attrMap.entries_nodup.map fun _ _ h => attrName_inj.mp h

/-- Every text of the device is empty or a decimal number. -/
def Dev.Decimal (dev : Dev) : Prop :=
  ∀ topic attr, dev.attrMap.get topic = some attr → DecimalOrEmpty attr

/-- Every attribute of the device has a text. -/
def Dev.NoneEmpty (dev : Dev) : Prop :=
  ∀ topic attr, dev.attrMap.get topic = some attr → attr.str ≠ ""

instance (dev : Dev) : Decidable dev.NoneEmpty :=
  decidable_of_iff (∀ entry ∈ dev.attrMap.entries, entry.2.str ≠ "")
    ⟨fun h topic attr hget => h (topic, attr) (Registry.mem_entries_iff.mpr hget),
      fun h entry hentry => h entry.1 entry.2 (Registry.mem_entries_iff.mp hentry)⟩

theorem Dev.Decimal.digit (h : dev.Decimal) {a : Assignment} (ha : a ∈ dev.assignments) :
    ∀ c ∈ a.digits, isDigit c = true := by
  obtain ⟨topic, attr, hget, rfl⟩ := mem_assignments.mp ha
  rcases h topic attr hget with hempty | ⟨n, hn⟩
  · simp [hempty]
  · simpa [hn] using isDigit_toString

theorem nameValid_assignments {a : Assignment} (ha : a ∈ dev.assignments) : a.NameValid := by
  obtain ⟨topic, attr, _, rfl⟩ := mem_assignments.mp ha
  exact nameValid_attrName topic _

theorem Dev.Decimal.valid (h : dev.Decimal) (hnone : dev.NoneEmpty) {a : Assignment}
    (ha : a ∈ dev.assignments) : a.Valid := by
  refine ⟨nameValid_assignments ha, ?_, h.digit ha⟩
  obtain ⟨topic, attr, hget, rfl⟩ := mem_assignments.mp ha
  exact fun hnil => hnone topic attr hget (String.toList_inj.mp hnil)

/-- A variable of the rule when the assignments are carried out. -/
theorem get_ruleValue {vars : VarList F} {topic : UInt32}
    (hvars : vars.get (attrName topic) = some (ft.ofInt 0)) :
    (dev.assignments.foldl (fun vars a => vars.set a.name (a.value ft)) vars).get
      (attrName topic) = some (dev.ruleValue ft topic) := by
  unfold Dev.ruleValue
  cases hget : dev.attrMap.get topic with
  | none =>
      rw [get_foldl_of_notMem, hvars]
      · rfl
      · intro a ha heq
        obtain ⟨topic', attr, hget', rfl⟩ := mem_assignments.mp ha
        rw [attrName_inj.mp heq, hget] at hget'
        cases hget'
  | some attr =>
      have ha : ⟨attrName topic, attr.str.toList⟩ ∈ dev.assignments :=
        mem_assignments.mpr ⟨topic, attr, hget, rfl⟩
      exact get_foldl_of_mem ha (nodup_assignments dev) (by simp [hvars])

variable (ft)

theorem toList_ruleText (dev : Dev) :
    dev.ruleText.toList =
      dev.assignments.flatMap Assignment.text ++ ruleFixed.toList := by
  rw [Dev.ruleText, String.toList_append, toList_attrValTexts]

theorem noOperator_ruleFixed : NoOperator ruleFixed.toList := by
  have hhead : ruleFixed.toList.head? = some '(' := by decide +kernel
  intro c hc
  obtain rfl : '(' = c := Option.some.inj (hhead.symm.trans hc)
  simp

/-- Where an attribute has no text, the text of the rules is no expression. -/
theorem ruleVerdict_of_empty (epsinon : F) (h : dev.Decimal) (hempty : ¬ dev.NoneEmpty) :
    ruleVerdict ft epsinon dev.ruleText = none := by
  have hmissing : ∃ a ∈ dev.assignments, a.digits = [] := by
    simp only [Dev.NoneEmpty, not_forall, not_not] at hempty
    obtain ⟨topic, attr, hget, hstr⟩ := hempty
    exact ⟨_, mem_assignments.mpr ⟨topic, attr, hget, rfl⟩, by simp [hstr]⟩
  have htokens : exprTokens ft (dev.assignments.flatMap Assignment.text ++ ruleFixed.toList).length
      (dev.assignments.flatMap Assignment.text ++ ruleFixed.toList) .tdefault = none :=
    exprTokens_of_missing (fun a ha => nameValid_assignments ha) (fun a ha => h.digit ha) hmissing
      noOperator_ruleFixed (Nat.le_refl _) fits_tdefault
  obtain ⟨err, herr⟩ := exprLoop_of_tokens_none fits_tdefault htokens
    ⟨[], [], [], [], [], [], .allowed⟩
  rw [ruleVerdict, toList_ruleText, exprCreate, herr]
  rfl

/-- Otherwise the rule compares the sum. -/
theorem ruleVerdict_of_noneEmpty (epsinon : F) (h : dev.Decimal) (hnone : dev.NoneEmpty) :
    ruleVerdict ft epsinon dev.ruleText =
      some (passes ft epsinon (ofBool ft (ft.lt (decimalValue ft ['1'])
        (ft.add (ft.add (dev.ruleValue ft 2) (dev.ruleValue ft 1)) (dev.ruleValue ft 3))))) := by
  have hspells : Spells ft false .operand (assignSource ft dev.assignments (ruleSource ft)).tokens
      (dev.assignments.flatMap Assignment.text ++ ruleFixed.toList) :=
    spells_assignSource (fun a ha => h.valid hnone ha) spells_ruleSource
  have hcreate : exprCreate ft (dev.assignments.flatMap Assignment.text ++ ruleFixed.toList) [] =
      .ok (_, _) :=
    exprCreate_of_tokens (wellPrec_assignSource wellPrec_ruleSource)
      (value_assignSource value_ruleSource)
      (exprTokens_of_spells hspells (Nat.le_refl _) fits_tdefault rfl)
  have hvars : ∀ topic, .atom (.var (attrName topic)) ∈ (ruleSource ft).tokens →
      (declare ft [] (assignSource ft dev.assignments (ruleSource ft)).tokens).get
        (attrName topic) = some (ft.ofInt 0) := fun topic hmem =>
    get_declare (nameValid_attrName topic []).head (mem_tokens_assignSource hmem) [] rfl
  rw [ruleVerdict, toList_ruleText, hcreate]
  simp only [exprEval_assignExpr]
  rw [exprEval_ruleExpr (get_ruleValue (hvars 1 ?_)) (get_ruleValue (hvars 2 ?_))
    (get_ruleValue (hvars 3 ?_))]
  · rfl
  all_goals simp [ruleSource, Source.tokens]

/-! ## What is sent -/

/-- The packet of the rules, if the product has a format for it. -/
def EdgeState.ruleCommand (s : EdgeState) (dev : Dev) : List Output :=
  ((s.deref dev.pdt).bind fun pdt => s.getG1Fmt pdt.topic 0x10000002).elim [] fun fmt =>
    [.device dev.module ((EdgeState.sndPkt fmt 0x10000002 [0xFF, 0xFF, 0xFE]).take
      (12 + fmt.pktLen))]

theorem val_sendPktToDevice (s : EdgeState) {pdt : EdgePdt} (hpdt : s.deref dev.pdt = some pdt) :
    (s.sendPktToDevice dev 0x10000002 [0xFF, 0xFF, 0xFE]).val =
      some { s with out := s.ruleCommand dev ++ s.out } := by
  unfold EdgeState.sendPktToDevice EdgeState.ruleCommand
  rw [hpdt]
  cases hfmt : s.getG1Fmt pdt.topic 0x10000002 with
  | none => simp [hfmt]
  | some fmt => simp [hfmt]

/-- The rule fires: there is an update that was not reported, every attribute has
a text, and the sum is greater than 1. -/
def Dev.RuleFires (dev : Dev) : Prop := dev.Pending ∧ dev.NoneEmpty ∧ dev.SumExceeds ft

instance (dev : Dev) : Decidable (dev.RuleFires ft) :=
  inferInstanceAs (Decidable (dev.reportTs < dev.updateTs ∧ dev.NoneEmpty ∧ _ = true))

/-- `check_rule_engine` sends its packet precisely if the rule fires. -/
theorem val_checkRuleEngine {env : Env} {epsinon : F} (henv : env.ruleEval = ruleVerdict ft epsinon)
    (hzero : passes ft epsinon (ft.ofInt 0) = false) (hone : passes ft epsinon (ft.ofInt 1) = true)
    (s : EdgeState) {pdt : EdgePdt} (hpdt : s.deref dev.pdt = some pdt) (h : dev.Decimal) :
    (s.checkRuleEngine env dev).val =
      some { s with out := (if dev.RuleFires ft then s.ruleCommand dev else []) ++ s.out } := by
  have hrule : env.ruleEval (EdgeState.attrValTexts "," dev ++
      "(a00000002 + a00000001 + a00000003)>1") =
        if dev.NoneEmpty then
          some (ft.lt (decimalValue ft ['1'])
            (ft.add (ft.add (dev.ruleValue ft 2) (dev.ruleValue ft 1)) (dev.ruleValue ft 3)))
        else none := by
    rw [henv]
    split
    · next hnone =>
      refine (ruleVerdict_of_noneEmpty ft epsinon h hnone).trans (congrArg some ?_)
      cases ft.lt (decimalValue ft ['1'])
        (ft.add (ft.add (dev.ruleValue ft 2) (dev.ruleValue ft 1)) (dev.ruleValue ft 3))
      · simpa [ofBool] using hzero
      · simpa [ofBool] using hone
    · next hnone => exact ruleVerdict_of_empty ft epsinon h hnone
  unfold EdgeState.checkRuleEngine
  by_cases hts : dev.updateTs ≤ dev.reportTs
  · rw [if_pos hts, if_neg fun hfires : dev.RuleFires ft => Nat.not_lt.mpr hts hfires.1]
    rfl
  · rw [if_neg hts]
    simp only [Traced.val_bind, Traced.val_touch, Option.bind_some, hrule]
    have hpending : dev.Pending := Nat.not_le.mp hts
    by_cases hnone : dev.NoneEmpty
    · rw [if_pos hnone]
      cases hlt : ft.lt (decimalValue ft ['1'])
        (ft.add (ft.add (dev.ruleValue ft 2) (dev.ruleValue ft 1)) (dev.ruleValue ft 3)) with
      | false =>
          have hquiet : ¬ dev.RuleFires ft := fun hfires =>
            Bool.false_ne_true (hlt.symm.trans hfires.2.2)
          rw [if_neg hquiet]
          simp
      | true =>
          have hfires : dev.RuleFires ft := ⟨hpending, hnone, hlt⟩
          rw [if_pos hfires]
          simp [val_sendPktToDevice s hpdt]
    · rw [if_neg hnone, if_neg fun hfires : dev.RuleFires ft => hnone hfires.2.1]
      rfl

end Device

/-! ## Runs -/

/-- A value that fits its array leaves the text alone, unless it is printed. -/
theorem str_set_of_le {attr attr' : AttrVal} {type : Option EdgeAttrType} {data : List UInt8}
    (hlen : data.length ≤ maxDeviceAttributeLen) (htopic : attr'.topic = attr.topic)
    (hmem : attr'.mem = attr.mem.set type data) :
    attr'.str = attr.str ∨ attr'.str = numToString data := by
  have hcopy : attr'.mem = attr.mem.write 0 data → attr'.str = attr.str := fun hcopied => by
    have hdrop : attr'.mem.bytes.drop maxDeviceAttributeLen =
        attr.mem.bytes.drop maxDeviceAttributeLen := by
      rw [hcopied]
      exact drop_overwrite_of_le hlen
    rw [AttrVal.str, AttrVal.str, hdrop, htopic]
  cases type with
  | none => exact Or.inl (hcopy hmem)
  | some ty =>
      cases ty with
      | num => exact Or.inr (AttrVal.str_of_set hmem)
      | str => exact Or.inl (hcopy hmem)

/-- An update prints a number or leaves the text alone. -/
theorem keptByUpt_decimalOrEmpty : KeptByUpt DecimalOrEmpty := by
  intro s dev topic data attr u k hlen hu hold
  have hbefore : DecimalOrEmpty (dev.attrBefore topic) := by
    unfold Dev.attrBefore
    cases hget : dev.attrMap.get topic with
    | none => exact Or.inl rfl
    | some old => exact hold old hget
  have hset : ∀ {old : AttrVal}, DecimalOrEmpty old →
      s.setAttrVal { old with len := data.length } data = some attr → DecimalOrEmpty attr := by
    intro old hdecimal hset
    obtain ⟨htopic, _, hmem⟩ := EdgeState.setAttrVal_eq_some hset
    rcases str_set_of_le hlen htopic hmem with hstr | hstr
    · unfold DecimalOrEmpty
      rw [hstr]
      exact hdecimal
    · exact Or.inr ⟨numToValue data, hstr⟩
  cases hu with
  | same _ => exact hbefore
  | changed hget _ hval => exact hset (hold _ hget) hval
  | first hnone _ hval => exact hset hbefore hval

def Output.IsDevice : Output → Bool
  | .device _ _ => true
  | _ => false

/-- The packets to devices, the latest first. -/
def EdgeState.commands (s : EdgeState) : List Output := s.out.filter Output.IsDevice

theorem tokenLoop_commands {payload : Buf} {payloadLen : ℕ} {tokens : List G1Token}
    {s s' : EdgeState} {dev dev' : Dev}
    (h : (EceLib.tokenLoop payload payloadLen tokens s dev).val = some (s', dev')) :
    s'.commands = s.commands := by
  induction tokens generalizing s dev with
  | nil =>
      cases h
      rfl
  | cons token next ih =>
      rcases tokenLoop_cons_cases h with ⟨_, hnext⟩ | ⟨v, u, k, out, _, _, _, _, hout, hnext⟩
      · exact ih hnext
      · rw [ih hnext]
        rcases hout with rfl | ⟨_, rfl⟩
        · rfl
        · rfl

theorem filter_ruleCommand (s : EdgeState) (dev : Dev) :
    (s.ruleCommand dev).filter Output.IsDevice = s.ruleCommand dev := by
  unfold EdgeState.ruleCommand
  cases (s.deref dev.pdt).bind fun pdt => s.getG1Fmt pdt.topic 0x10000002 with
  | none => rfl
  | some fmt => rfl

theorem filter_server {msgs : List Output} (h : ∀ o ∈ msgs, ∃ msg, o = Output.server msg) :
    msgs.filter Output.IsDevice = [] := by
  refine List.filter_eq_nil_iff.mpr fun o ho => ?_
  obtain ⟨msg, rfl⟩ := h o ho
  simp [Output.IsDevice]

/-- In every run that stays in its buffers, a packet that is delivered leads to
the packet of the rules precisely if the rule fires for the device as the packet
leaves it. -/
theorem commands_of_run {env : Env} {epsinon : F} (henv : env.ruleEval = ruleVerdict ft epsinon)
    (hzero : passes ft epsinon (ft.ofInt 0) = false) (hone : passes ft epsinon (ft.ofInt 1) = true)
    {mac : List UInt8} {clock : ℕ → ℕ} {es : List Event} {s s' : EdgeState}
    (hrun : run (EdgeState.step env) (EdgeState.init mac clock) es = some s) {type : UInt32}
    {module : UInt64} {pkt : Buf} {size : UInt64} {fmt : G1Fmt}
    (hinside : EveryStep (EdgeState.step env) (fun s e => e.EachAccess Access.InBounds env s)
      (EdgeState.init mac clock) (es ++ [.packet type module pkt size]))
    (hdelivered : s.Delivered type pkt size fmt)
    (hstep : s.step env (.packet type module pkt size) = some s') :
    ∃ dev, s'.gDevMap.get (pktOid type pkt size) = some dev ∧
      s'.commands = (if dev.RuleFires ft then s.ruleCommand dev else []) ++ s.commands := by
  have htexts : s'.EachValue DecimalOrEmpty := by
    refine keptByUpt_decimalOrEmpty.throughout env mac clock
      (hinside.mono fun _ _ => storesSized_of_inBounds) _ (List.prefix_refl _) s' ?_
    rw [run_append, hrun, Option.bind_some, run_cons, hstep]
    rfl
  obtain ⟨⟨ret, s₁⟩, hrcv, rfl⟩ := Option.map_eq_some_iff.mp hstep
  obtain ⟨file, hfile⟩ := received_eq env s type module pkt size
  have hreceived := hdelivered.received env module
  obtain ⟨dev, pdt, hdev, hpdt, _⟩ := hdelivered.exists_dev
  rw [val_edgeRcvPkt env type module pkt hdelivered.on hdelivered.nonempty,
    Option.map_eq_some_iff] at hrcv
  obtain ⟨r, hparse, hanswer⟩ := hrcv
  obtain ⟨msgs, hmsgs, hout⟩ := answer_snd env module pkt size r
  rw [hanswer] at hout
  rw [hfile] at hparse hreceived
  rw [hreceived.val_parseG1Pkt env hdev] at hparse
  simp only [Option.bind_eq_some_iff, Option.map_eq_some_iff] at hparse
  obtain ⟨⟨s₂, dev₂⟩, hloop, s₃, hrule, rfl⟩ := hparse
  have hs' : s₁ = { s₃ with out := msgs ++ s₃.out } := hout
  obtain ⟨⟨k, out, hs₂⟩, hoid₂, hpdt₂, _⟩ := (tokenLoop_devSteps hloop).frame
  have hkey : dev₂.oid = pktOid type pkt size := hoid₂.trans (Registry.key_of_get hdev)
  have hget : s₁.gDevMap.get (pktOid type pkt size) = some dev₂ := by
    have hput := get_putDev s₂ hkey (pktOid type pkt size)
    rw [if_pos rfl] at hput
    rw [hs']
    rcases checkRuleEngine_cases hrule with rfl | ⟨out, rfl⟩
    · exact hput
    · exact hput
  have hdecimal : dev₂.Decimal := fun topic attr hattr => htexts _ dev₂ topic attr hget hattr
  have hderef : (s₂.putDev dev₂).deref dev₂.pdt = some pdt := by
    rw [hpdt₂, hs₂]
    exact hpdt
  have hcommand : (s₂.putDev dev₂).ruleCommand dev₂ = s.ruleCommand dev₂ := by
    rw [hs₂]
    rfl
  rw [val_checkRuleEngine ft henv hzero hone _ hderef hdecimal, Option.some.injEq] at hrule
  have hcommands : s₂.commands = s.commands := (tokenLoop_commands hloop).trans rfl
  refine ⟨dev₂, hget, ?_⟩
  rw [hs', ← hrule, ← hcommands, ← hcommand, EdgeState.commands, List.filter_append,
    List.filter_append, filter_server hmsgs, List.nil_append]
  refine congrArg₂ _ ?_ rfl
  split
  · exact filter_ruleCommand _ _
  · rfl

/-- A device with three attributes, and a format for the packet of the rules. -/
def threeAttrsRun : List Event :=
  [.command (.addProduct 5 1),
    .command (.addDevice (Buf.ofBytes (List.replicate mgtAddrSize 1)) 6 0 0 5),
    .command (.addPacketFormat (Buf.ofBytes (List.replicate mgtPktSize 0)) 10 5 7 3 0 10),
    .command (.addPacketFormat (Buf.ofBytes (List.replicate mgtPktSize 0)) 3 5 0x10000002 3 0 3),
    .command (.addFormatToken 5 7 1 0 0 1),
    .command (.addFormatToken 5 7 2 0 1 1),
    .command (.addFormatToken 5 7 3 0 2 1)]

def threeAttrsPkt : List UInt8 := [0, 0, 1, 1, 1, 1, 1, 1, 0, 0, 0, 7, 0, 3, 4, 5, 6]

/-- The values 4, 5 and 6 add up to more than 1. -/
theorem commands_of_run_three :
    ∃ s s' dev, run (EdgeState.step { Env.plain with ruleEval := ruleVerdict intTarget 0 })
        (EdgeState.init [] fun _ => 1) threeAttrsRun = some s ∧
      s.step { Env.plain with ruleEval := ruleVerdict intTarget 0 }
        (.packet 0 0 (Buf.ofBytes threeAttrsPkt) 17) = some s' ∧
      s'.gDevMap.get (pktOid 0 (Buf.ofBytes threeAttrsPkt) 17) = some dev ∧
      s'.commands =
        (if dev.RuleFires intTarget then s.ruleCommand dev else []) ++ s.commands ∧
      s'.commands.length = 1 := by
  have heval : (run (EdgeState.step { Env.plain with ruleEval := ruleVerdict intTarget 0 })
      (EdgeState.init [] fun _ => 1) threeAttrsRun).any (fun s =>
        ((s.pktFmt 0 (Buf.ofBytes threeAttrsPkt) 17).any fun fmt =>
          decide (s.Delivered 0 (Buf.ofBytes threeAttrsPkt) 17 fmt)) &&
        ((s.step { Env.plain with ruleEval := ruleVerdict intTarget 0 }
          (.packet 0 0 (Buf.ofBytes threeAttrsPkt) 17)).any fun s' =>
            s'.commands.length == 1)) = true := by
    decide +kernel
  simp only [Option.any_eq_true, Bool.and_eq_true, decide_eq_true_eq, beq_iff_eq] at heval
  obtain ⟨s, hrun, ⟨fmt, _, hdelivered⟩, s', hstep, hlen⟩ := heval
  have hzero : passes intTarget 0 (intTarget.ofInt 0) = false := by decide
  have hone : passes intTarget 0 (intTarget.ofInt 1) = true := by decide
  have hinside : EveryStep (EdgeState.step { Env.plain with ruleEval := ruleVerdict intTarget 0 })
      (fun s e => e.EachAccess Access.InBounds
        { Env.plain with ruleEval := ruleVerdict intTarget 0 } s) (EdgeState.init [] fun _ => 1)
      (threeAttrsRun ++ [.packet 0 0 (Buf.ofBytes threeAttrsPkt) 17]) := by
    decide +kernel
  obtain ⟨dev, hdev, hcommands⟩ := commands_of_run rfl hzero hone hrun hinside hdelivered hstep
  exact ⟨s, s', dev, hrun, hstep, hdev, hcommands, hlen⟩

end EceLib
