import EceLib.Edge.Lengths
import EceLib.Edge.Reports
import EceLib.Edge.ValueStore

/-!
# The text of the rules

`check_rule_engine` writes an assignment for every attribute of a device and a
fixed rule into two arrays of 512 bytes.  Nothing limits the number of
attributes.
-/

namespace EceLib

open Support

/-! ## Lengths of the texts -/

theorem length_hexPadded_eight (x : UInt32) : (hexPadded 8 x).length = 8 := by
  refine le_antisymm (length_hexPadded_le (by decide) x) ?_
  rw [hexPadded, List.length_leftpad]
  exact le_max_left _ _

/-- The length of the assignments for all attributes. -/
def Dev.textTotal (dev : Dev) : ℕ := dev.attrMap.total fun attr => 11 + attr.str.length

theorem length_attrValText {sep : String} (hsep : sep.length = 1) (attr : AttrVal) :
    (EdgeState.attrValText sep attr).length = 11 + attr.str.length := by
  simp only [EdgeState.attrValText, String.length_append, String.length_ofList,
    length_hexPadded_eight, hsep]
  have hname : "a".length = 1 := by decide
  have heq : "=".length = 1 := by decide
  omega

theorem length_foldl_append {α : Type} (f : α → String) (l : List α) (buf : String) :
    (l.foldl (fun buf a => buf ++ f a) buf).length =
      buf.length + (l.map fun a => (f a).length).sum := by
  induction l generalizing buf with
  | nil => simp
  | cons a l ih =>
      rw [List.foldl_cons, ih, String.length_append, List.map_cons, List.sum_cons, Nat.add_assoc]

theorem length_attrValTexts {sep : String} (hsep : sep.length = 1) (dev : Dev) :
    (EdgeState.attrValTexts sep dev).length = dev.textTotal := by
  rw [EdgeState.attrValTexts, length_foldl_append]
  simp [Dev.textTotal, Registry.total, length_attrValText hsep]

/-- Every assignment has at least eleven characters. -/
theorem Dev.le_textTotal (dev : Dev) : dev.attrMap.entries.length * 11 ≤ dev.textTotal := by
  have hsum : ∀ entries : List (UInt32 × AttrVal),
      entries.length * 11 ≤ (entries.map fun entry => 11 + entry.2.str.length).sum := by
    intro entries
    induction entries with
    | nil => simp
    | cons entry entries ih =>
        simp only [List.map_cons, List.sum_cons, List.length_cons]
        omega
  exact hsum _

/-- The texts behind the assignments. -/
def ruleFixed : String := "(a00000002 + a00000001 + a00000003)>1"

def luaFixed : String :=
  " function test()\n print(a00000001 + a00000002 + a00000003)\n return 1 \nend"

theorem length_ruleFixed : ruleFixed.length = 37 := by decide +kernel

theorem length_luaFixed : luaFixed.length = 73 := by decide +kernel

/-- The text in `rule_buf` when it is evaluated. -/
def Dev.ruleText (dev : Dev) : String := EdgeState.attrValTexts "," dev ++ ruleFixed

/-- The text in `lua_buf` when it is run. -/
def Dev.luaText (dev : Dev) : String := EdgeState.attrValTexts "\n" dev ++ luaFixed

theorem Dev.length_ruleText (dev : Dev) : dev.ruleText.length = dev.textTotal + 37 := by
  rw [ruleText, String.length_append, length_attrValTexts (by decide), length_ruleFixed]

theorem Dev.length_luaText (dev : Dev) : dev.luaText.length = dev.textTotal + 73 := by
  rw [luaText, String.length_append, length_attrValTexts (by decide), length_luaFixed]

/-! ## The accesses of the rule engine -/

/-- The texts end inside their arrays, and no value is longer than the two arrays
of its entry: the key of the entry lies behind them, and nothing can be said of
the texts of a device whose keys are overwritten. -/
def RuleInBounds (a : Access Buffer) : Prop :=
  (a.buf = .ruleBuf ∨ a.buf = .luaBuf → a.InBounds) ∧ ValueWithin attrMemSize a

/-- What `rule_buf` has room for beside the rule and the terminator. -/
def ruleTextMax : ℕ := 474

/-- What `lua_buf` has room for beside the function and the terminator. -/
def luaTextMax : ℕ := 438

/-- The assignments leave room for the rule, and for the function too if the
evaluator accepts the rule. -/
structure Dev.TextsFit (dev : Dev) (ruleEval : String → Option Bool) : Prop where
  rule : dev.textTotal ≤ ruleTextMax
  lua : (ruleEval dev.ruleText).isSome → dev.textTotal ≤ luaTextMax

theorem onlyOf_ruleInBounds : OnlyOf [.ruleBuf, .luaBuf, .attrVal] RuleInBounds := by
  intro a ha
  refine ⟨fun hbuf => absurd ?_ ha, fun hbuf => absurd ?_ ha⟩
  · rcases hbuf with hbuf | hbuf <;> simp [hbuf]
  · simp [hbuf]

/-- Texts of which nothing but the end can go wrong. -/
theorem ruleInBounds_iff {buf : Buffer} (hbuf : buf = .ruleBuf ∨ buf = .luaBuf) {n : ℕ} :
    RuleInBounds ⟨buf, 0, n, EdgeState.ruleBufSize⟩ ↔ n ≤ EdgeState.ruleBufSize := by
  have hvalue : ValueWithin attrMemSize ⟨buf, 0, n, EdgeState.ruleBufSize⟩ := by
    rcases hbuf with rfl | rfl <;> simp [ValueWithin]
  rw [RuleInBounds, and_iff_left hvalue]
  constructor
  · intro h
    have hbounds : 0 + n ≤ EdgeState.ruleBufSize := h hbuf
    omega
  · intro h _
    change 0 + n ≤ EdgeState.ruleBufSize
    omega

/-- The accesses of `check_rule_engine`: the two texts, the packet if the rule
holds, and the function if the rule was evaluated and the packet sent. -/
theorem each_checkRuleEngine_iff {P : Access Buffer → Prop} (env : Env) (s : EdgeState)
    (dev : Dev) :
    (s.checkRuleEngine env dev).Each P ↔
      (dev.Pending →
        P ⟨.ruleBuf, 0, dev.ruleText.length + 1, EdgeState.ruleBufSize⟩ ∧
        P ⟨.luaBuf, 0, (EdgeState.attrValTexts "\n" dev).length + 1, EdgeState.ruleBufSize⟩ ∧
        ∀ passed, env.ruleEval dev.ruleText = some passed →
          (passed = true →
            (s.sendPktToDevice dev 0x10000002 [0xFF, 0xFF, 0xFE]).Each P) ∧
          ((passed = true →
              (s.sendPktToDevice dev 0x10000002 [0xFF, 0xFF, 0xFE]).val.isSome) →
            P ⟨.luaBuf, 0, dev.luaText.length + 1, EdgeState.ruleBufSize⟩)) := by
  unfold Dev.Pending
  by_cases hts : dev.updateTs ≤ dev.reportTs
  · simp [EdgeState.checkRuleEngine, hts, Nat.not_lt.mpr hts]
  · have hlua : ∀ x : Traced Buffer EdgeState, (do
        let s ← x
        Traced.touch ⟨.luaBuf, 0, dev.luaText.length + 1, EdgeState.ruleBufSize⟩
        pure s).Each P ↔
          x.Each P ∧ (x.val.isSome →
            P ⟨.luaBuf, 0, dev.luaText.length + 1, EdgeState.ruleBufSize⟩) := by
      intro x
      rw [Traced.each_bind]
      simp only [Traced.each_touch_bind, Traced.each_pure, and_true, Option.isSome_iff_exists,
        forall_exists_index]
    rw [EdgeState.checkRuleEngine, if_neg hts, Traced.each_touch_bind, Traced.each_touch_bind]
    simp only [Nat.not_le.mp hts, true_imp_iff]
    refine and_congr_right fun _ => and_congr_right fun _ => ?_
    have hfixed : EdgeState.attrValTexts "," dev ++ "(a00000002 + a00000001 + a00000003)>1" =
        dev.ruleText := rfl
    rw [hfixed]
    cases env.ruleEval dev.ruleText with
    | none => simp
    | some passed =>
        simp only [Option.some.injEq, forall_eq']
        cases passed with
        | false =>
            refine (hlua (pure s)).trans ?_
            simp only [Traced.each_pure, Traced.val_pure, Option.isSome_some, true_and,
              Bool.false_eq_true, false_imp_iff, true_imp_iff]
        | true =>
            refine (hlua (s.sendPktToDevice dev 0x10000002 [0xFF, 0xFF, 0xFE])).trans ?_
            simp only [true_imp_iff]

/-- What the rule engine needs of a device whose product is there: nothing is to
be checked, or the assignments leave room, and the packet can be sent if the
rule holds. -/
theorem each_checkRuleEngine_iff_textsFit {P : Access Buffer → Prop}
    (htext : ∀ buf, buf = .ruleBuf ∨ buf = .luaBuf → ∀ n,
      (P ⟨buf, 0, n, EdgeState.ruleBufSize⟩ ↔ n ≤ EdgeState.ruleBufSize))
    (env : Env) {s : EdgeState} {dev : Dev} {pdt : EdgePdt} (hpdt : s.deref dev.pdt = some pdt) :
    (s.checkRuleEngine env dev).Each P ↔
      (dev.Pending → dev.TextsFit env.ruleEval ∧
        (env.ruleEval dev.ruleText = some true →
          (s.sendPktToDevice dev 0x10000002 [0xFF, 0xFF, 0xFE]).Each P)) := by
  have hsent := EdgeState.isSome_sendPktToDevice hpdt 0x10000002 [0xFF, 0xFF, 0xFE]
  have hfeed : (EdgeState.attrValTexts "\n" dev).length = dev.textTotal :=
    length_attrValTexts (by decide) dev
  rw [each_checkRuleEngine_iff, htext _ (.inl rfl), htext _ (.inr rfl), htext _ (.inr rfl),
    dev.length_ruleText, dev.length_luaText, hfeed]
  simp only [hsent, implies_true, true_imp_iff, EdgeState.ruleBufSize]
  refine imp_congr_right fun _ => ?_
  constructor
  · rintro ⟨hrule, _, hpassed⟩
    refine ⟨⟨?_, fun hsome => ?_⟩, fun htrue => (hpassed true htrue).1 rfl⟩
    · unfold ruleTextMax
      omega
    · obtain ⟨passed, hval⟩ := Option.isSome_iff_exists.mp hsome
      have hlua := (hpassed passed hval).2
      unfold luaTextMax
      omega
  · rintro ⟨⟨hrule, hlua⟩, hsend⟩
    unfold ruleTextMax at hrule
    refine ⟨by omega, by omega, fun passed hval => ⟨fun htrue => hsend (htrue ▸ hval), ?_⟩⟩
    have hle := hlua (Option.isSome_of_eq_some hval)
    unfold luaTextMax at hle
    omega

theorem ruleInBounds_checkRuleEngine_iff (env : Env) {s : EdgeState} {dev : Dev} {pdt : EdgePdt}
    (hpdt : s.deref dev.pdt = some pdt) :
    (s.checkRuleEngine env dev).Each RuleInBounds ↔ (dev.Pending → dev.TextsFit env.ruleEval) := by
  rw [each_checkRuleEngine_iff_textsFit (fun _ hbuf _ => ruleInBounds_iff hbuf) env hpdt]
  refine imp_congr_right fun _ => and_iff_left fun _ => ?_
  exact onlyOf_ruleInBounds.each (touches_sendPktToDevice _ _ _ _) (by decide)

/-- A packet that is delivered: the accesses come down to the lengths of the
tokens and to what the rule engine needs for the device behind them. -/
theorem EdgeState.Delivered.each_iff_devAfter {s : EdgeState} {type : UInt32} {pkt : Buf}
    {size : UInt64} {fmt : G1Fmt} (h : s.Delivered type pkt size fmt) (env : Env)
    (module : UInt64) {dev : Dev} (hdev : s.gDevMap.get (pktOid type pkt size) = some dev)
    {P : Access Buffer → Prop} (hreceive : ∀ a, a.buf ∈ receiveBuffers → P a)
    (hvalues : LimitsValues attrMemSize P) {C : Prop}
    (hcheck : ∀ s₁ : EdgeState, s₁.gPdtMap = s.gPdtMap →
      ((s₁.checkRuleEngine env (s.devAfter dev fmt (pktPayload pkt size))).Each P ↔ C)) :
    (s.edgeRcvPkt env type module pkt size).Each P ↔
      TokensWithin attrMemSize s.gAttrMap (pktPayload pkt size) fmt.token dev.vals ∧
        (TokensStorable s.gAttrMap (pktPayload pkt size) fmt.token dev.vals → C) := by
  obtain ⟨file, hfile⟩ := received_eq env s type module pkt size
  have hsame : s.received env type module pkt size = { s.advance 1 with pktFile := file } := hfile
  rw [h.each_edgeRcvPkt env module hdev hreceive, hsame, hvalues.each_tokenLoop_iff]
  refine and_congr_right fun _ => ?_
  have hstorable : (EceLib.tokenLoop (pktPayload pkt size)
      (msgPayloadLen (pktMsg pkt size) (pktMsgSize pkt size)) fmt.token
      (({ s.advance 1 with pktFile := file } : EdgeState).freshDev dev).1
      (({ s.advance 1 with pktFile := file } : EdgeState).freshDev dev).2).val.isSome ↔
        TokensStorable s.gAttrMap (pktPayload pkt size) fmt.token dev.vals :=
    EceLib.isSome_tokenLoop _ _
  refine Iff.trans ?_ (imp_congr_left hstorable)
  cases hval : (EceLib.tokenLoop (pktPayload pkt size)
      (msgPayloadLen (pktMsg pkt size) (pktMsgSize pkt size)) fmt.token
      (({ s.advance 1 with pktFile := file } : EdgeState).freshDev dev).1
      (({ s.advance 1 with pktFile := file } : EdgeState).freshDev dev).2).val with
  | none => simp
  | some r =>
      obtain ⟨hafter, hpdts⟩ := tokenLoop_devAfter rfl hval
      simp only [Option.some.injEq, forall_eq', Option.isSome_some, true_imp_iff]
      rw [hafter] at hpdts ⊢
      exact hcheck _ hpdts

/-! ## Runs -/

/-- Of a packet that is delivered no token is longer than the arrays of its
entry.  If its values can be stored, and there is then an update that was not
reported, the assignments leave room. -/
def RuleTextShort (env : Env) (s : EdgeState) (e : Event) : Prop :=
  e.OnDelivery (fun s dev fmt payload =>
    TokensWithin attrMemSize s.gAttrMap payload fmt.token dev.vals ∧
      (TokensStorable s.gAttrMap payload fmt.token dev.vals →
        (s.devAfter dev fmt payload).Pending →
          (s.devAfter dev fmt payload).TextsFit env.ruleEval)) s

theorem eachAccess_ruleInBounds_iff (env : Env) (s : EdgeState) (e : Event) :
    e.EachAccess RuleInBounds env s ↔ RuleTextShort env s e := by
  have hreceive : ∀ a : Access Buffer, a.buf ∈ receiveBuffers → RuleInBounds a :=
    onlyOf_ruleInBounds.of_mem (by decide)
  have hvalues : LimitsValues attrMemSize RuleInBounds :=
    ⟨fun a ha => onlyOf_ruleInBounds a (by simp [ha]), fun len => by
      simp [RuleInBounds, ValueWithin]⟩
  refine Event.eachAccess_iff_onDelivery (onlyOf_ruleInBounds.of_mem (by decide)) hreceive
    (fun type module pkt size fmt dev hdelivered hdev =>
      hdelivered.each_iff_devAfter env module hdev hreceive hvalues fun s₁ hpdts => ?_) e
  obtain ⟨dev', pdt, hdev', hpdt, _⟩ := hdelivered.exists_dev
  obtain rfl := Option.some.inj (hdev.symm.trans hdev')
  have hlive : s₁.deref (s.devAfter dev fmt (pktPayload pkt size)).pdt = some pdt := by
    rw [EdgeState.pdt_devAfter, EdgeState.deref, hpdts]
    exact hpdt
  exact ruleInBounds_checkRuleEngine_iff env hlive

/-- In a run from the initial state the texts always fit precisely if the
assignments leave room for the rule, and for the function, whenever these are
written. -/
theorem ruleText_everyStep_iff (env : Env) (mac : List UInt8) (clock : ℕ → ℕ) (es : List Event) :
    EveryStep (EdgeState.step env) (fun s e => e.EachAccess RuleInBounds env s)
        (EdgeState.init mac clock) es ↔
      EveryStep (EdgeState.step env) (RuleTextShort env) (EdgeState.init mac clock) es :=
  everyStep_iff (K := fun _ => True) (A := fun _ => True) (fun _ _ _ _ _ _ => trivial)
    (fun s e _ _ => eachAccess_ruleInBounds_iff env s e) trivial fun _ _ => trivial

/-- A product with a device, and a format with a token for each of its 44 bytes. -/
def manyTokensRun : List Event :=
  [.command (.addProduct 5 1),
    .command (.addDevice (Buf.ofBytes (List.replicate mgtAddrSize 1)) 6 0 0 5),
    .command (.addPacketFormat (Buf.ofBytes (List.replicate mgtPktSize 0)) 10 5 7 44 0 10)] ++
  (List.range 44).map fun i =>
    .command (.addFormatToken 5 7 (UInt32.ofNat (i + 1)) 0 (UInt32.ofNat i) 1)

/-- A packet of the device with 44 bytes of payload. -/
def manyTokensPkt : List UInt8 :=
  [0, 0, 1, 1, 1, 1, 1, 1, 0, 0, 0, 7, 0, 44] ++ List.replicate 44 9

/-- The assignments for 44 attributes do not fit into `rule_buf`. -/
theorem ruleText_fails_of_many_tokens :
    ¬ ∀ (env : Env) (mac : List UInt8) (clock : ℕ → ℕ) (es : List Event),
      EveryStep (EdgeState.step env) (fun s e => e.EachAccess RuleInBounds env s)
        (EdgeState.init mac clock) es := by
  intro h
  have heval : (run (EdgeState.step Env.plain) (EdgeState.init [] fun _ => 1)
      manyTokensRun).map (fun s =>
        (s.pktFmt 0 (Buf.ofBytes manyTokensPkt) 58).any fun fmt =>
          (s.gDevMap.get (pktOid 0 (Buf.ofBytes manyTokensPkt) 58)).any fun dev =>
            decide (s.Delivered 0 (Buf.ofBytes manyTokensPkt) 58 fmt) &&
            (tokenLoop (pktPayload (Buf.ofBytes manyTokensPkt) 58) 44 fmt.token s dev).val.isSome &&
            decide (dev.reportTs <
              (s.devAfter dev fmt (pktPayload (Buf.ofBytes manyTokensPkt) 58)).updateTs) &&
            decide (44 ≤ (s.devAfter dev fmt
              (pktPayload (Buf.ofBytes manyTokensPkt) 58)).attrMap.entries.length)) =
      some true := by
    decide +kernel
  obtain ⟨s, hrun, heq⟩ := Option.map_eq_some_iff.mp heval
  simp only [Option.any_eq_true, Bool.and_eq_true, decide_eq_true_eq] at heq
  obtain ⟨fmt, _, dev, hdev, ⟨⟨hdelivered, hloop⟩, hdue⟩, hmany⟩ := heq
  have hpkt := (h Env.plain [] (fun _ => 1) (manyTokensRun ++
    [.packet 0 0 (Buf.ofBytes manyTokensPkt) 58])).of_append hrun
  obtain ⟨_, hshort⟩ := (eachAccess_ruleInBounds_iff _ _ _).mp hpkt fmt dev hdelivered hdev
  have hle := (hshort ((isSome_tokenLoop 44 s).mp hloop) ?_).rule
  · have hassign := Dev.le_textTotal
      (s.devAfter dev fmt (pktPayload (Buf.ofBytes manyTokensPkt) 58))
    unfold ruleTextMax at hle
    omega
  · rw [Dev.Pending, EdgeState.reportTs_devAfter]
    exact hdue

end EceLib
