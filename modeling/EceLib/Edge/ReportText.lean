import EceLib.Json.RoundTrip
import EceLib.Edge.DeviceIdentity
import EceLib.Edge.RuleVerdict

/-!
# The text of a report

`report_dev_attr` builds an object, prints it and sends the text.  In every run
the texts that are sent hold the OID of a device and the text of a value, so that
parsing one gives back what was reported, and reports with the same text are of
the same text of a value.
-/

namespace EceLib

open Support Json EdgeState

variable {F : Type}

/-! ## The object -/

def userIdKey : Text := Text.of ['u', 's', 'e', 'r', 'I', 'D']

def oidIndexKey : Text := Text.of ['O', 'I', 'D', 'I', 'n', 'd', 'e', 'x']

def propertyTopicKey : Text :=
  Text.of ['p', 'r', 'o', 'p', 'e', 'r', 't', 'y', 'T', 'o', 'p', 'i', 'c']

def valueKey : Text := Text.of ['v', 'a', 'l', 'u', 'e']

def flagKey : Text := Text.of ['F', 'l', 'a', 'g']

def scenerioIdKey : Text := Text.of ['s', 'c', 'e', 'n', 'e', 'r', 'i', 'o', 'I', 'D']

def userIdText : Text := Text.of ['l', 'z', 'h', 'o', 'u', 'i', 'o', 't']

def flagText : Text := Text.of ['G', 'A']

/-- The children of the object that `report_dev_attr` builds. -/
def reportMembers (dt : Double F) (oid : Oid) (attr : AttrVal) (scenerioId : UInt32) : Members F :=
  let root := createObject
  let root := addItemToObject root userIdKey (createString userIdText)
  let root := addItemToObject root oidIndexKey (createString (Text.of oid.chars))
  let root := addItemToObject root propertyTopicKey
    (createString (Text.of (hexPadded 1 attr.topic)))
  let root := addItemToObject root valueKey (createString (Text.of attr.str.toList))
  let root := addItemToObject root flagKey (createString flagText)
  addItemToObject root scenerioIdKey (createNumber dt (dt.ofInt scenerioId.toNat))

/-- The text that is sent on `MQTT_OASIS_APP`. -/
def reportText (dt : Double F) (oid : Oid) (attr : AttrVal) (scenerioId : UInt32) :
    Traced PrintBuf (List Char) :=
  print dt (.object (reportMembers dt oid attr scenerioId))

/-- What the receiver finds in the object of a report. -/
structure Reports (dt : Double F) (root : Members F) (oid : Oid) (attr : AttrVal)
    (scenerioId : UInt32) : Prop where
  userId : getObjectItem root userIdKey = some (.string userIdText)
  oidIndex : ∃ text, getObjectItem root oidIndexKey = some (.string text) ∧ text.chars = oid.chars
  propertyTopic : ∃ text, getObjectItem root propertyTopicKey = some (.string text) ∧
    text.chars = hexPadded 1 attr.topic
  value : ∃ text, getObjectItem root valueKey = some (.string text) ∧
    text.chars = attr.str.toList
  flag : getObjectItem root flagKey = some (.string flagText)
  scenerioId : getObjectItem root scenerioIdKey =
    some (createNumber dt (dt.ofInt scenerioId.toNat))

/-! ## What can be sent -/

/-- The OID of a report is a digest. -/
def Output.Readable : Output → Prop
  | .report oid _ _ => ∃ type addr, oid = oidOf type addr
  | _ => True

theorem ne_zero_digitChar {d : ℕ} (hd : d < 16) : d.digitChar ≠ '\x00' := by
  have hall : ∀ d < 16, Nat.digitChar d ≠ '\x00' := by decide
  exact hall d hd

theorem ne_zero_hexPadded (width : ℕ) (x : UInt32) :
    ∀ c ∈ hexPadded (width + 1) x, c ≠ '\x00' := by
  intro c hc
  rw [hexPadded, leftpad_toDigits] at hc
  obtain ⟨d, hd, rfl⟩ := List.mem_map.mp hc
  exact ne_zero_digitChar (hexDigits_lt hd)

theorem ne_zero_oidOf (type : UInt32) (addr : List UInt8) :
    ∀ c ∈ (oidOf type addr).chars, c ≠ '\x00' := by
  intro c hc
  obtain ⟨b, _, hb⟩ := List.mem_flatMap.mp hc
  have hlt := b.toNat_lt
  simp only [hexByte, List.mem_cons, List.not_mem_nil, or_false] at hb
  rcases hb with rfl | rfl
  · exact ne_zero_digitChar (by omega)
  · exact ne_zero_digitChar (by omega)

/-- A text ends in front of the first zero byte. -/
theorem AttrVal.ne_zero_str (attr : AttrVal) : ∀ c ∈ attr.str.toList, c ≠ '\x00' := by
  intro c hc
  rw [AttrVal.str, String.toList_ofList] at hc
  obtain ⟨b, hb, rfl⟩ := List.mem_map.mp hc
  have hne := ne_zero_of_mem_textOf hb
  have hchar : ∀ n < 256, n ≠ 0 → Char.ofNat n ≠ '\x00' := by decide +kernel
  exact hchar b.toNat b.toNat_lt fun hzero => hne (UInt8.toNat_inj.mp hzero)

/-- The registered devices have digests for their OIDs, and so it is with all
that was sent. -/
structure EdgeState.Readable (s : EdgeState) : Prop where
  named : ∀ oid dev, s.gDevMap.get oid = some dev → ∃ type addr, oid = oidOf type addr
  sent : ∀ o ∈ s.out, o.Readable

/-! ## What is sent -/

/-- The loop over the tokens reports values of the device. -/
theorem tokenLoop_readable {payload : Buf} {payloadLen : ℕ} {tokens : List G1Token}
    {s s' : EdgeState} {dev dev' : Dev} (hnamed : ∃ type addr, dev.oid = oidOf type addr)
    (hsent : ∀ o ∈ s.out, o.Readable)
    (h : (tokenLoop payload payloadLen tokens s dev).val = some (s', dev')) :
    ∀ o ∈ s'.out, o.Readable := by
  induction tokens generalizing s dev with
  | nil =>
      cases h
      exact hsent
  | cons token next ih =>
      rcases tokenLoop_cons_cases h with ⟨_, hnext⟩ | ⟨v, u, k, out, _, _, _, _, hout, hnext⟩
      · exact ih hnamed hsent hnext
      · refine ih ?_ ?_ hnext
        · exact hnamed
        · rcases hout with rfl | ⟨_, rfl⟩
          · exact hsent
          · exact List.forall_mem_cons.mpr ⟨hnamed, hsent⟩

theorem EdgeState.Readable.parseG1Pkt {env : Env} {s s' : EdgeState} {type : UInt32} {pkt : Buf}
    {size : UInt64} {ret : ℕ} (h : s.Readable)
    (hparse : (s.parseG1Pkt env type pkt size).val = some (ret, s')) :
    ∀ o ∈ s'.out, o.Readable := by
  rw [val_parseG1Pkt] at hparse
  split at hparse
  · cases hparse
    exact h.sent
  · split at hparse
    · cases hparse
    · split at hparse
      · cases hparse
        exact h.sent
      · next dev hdev =>
        rw [val_parseMsg] at hparse
        split at hparse
        · cases hparse
          exact h.sent
        · obtain ⟨pdt, _, hmsg⟩ := Option.bind_eq_some_iff.mp hparse
          split at hmsg
          · cases hmsg
            exact h.sent
          · obtain ⟨⟨s₁, dev₁⟩, hloop, hmsg⟩ := Option.bind_eq_some_iff.mp hmsg
            obtain ⟨s₂, hrule, heq⟩ := Option.map_eq_some_iff.mp hmsg
            cases heq
            have hkey : dev.oid = pktOid type pkt size := Registry.key_of_get hdev
            have hnamed : ∃ type addr, (s.freshDev dev).2.oid = oidOf type addr := ⟨_, _, hkey⟩
            have hbefore : ∀ o ∈ (s.freshDev dev).1.out, o.Readable := h.sent
            have hsent := tokenLoop_readable hnamed hbefore hloop
            rcases checkRuleEngine_cases hrule with rfl | ⟨out, rfl⟩
            · exact hsent
            · exact List.forall_mem_cons.mpr ⟨trivial, hsent⟩

theorem readable_of_server {msgs : List Output} (h : ∀ o ∈ msgs, ∃ msg, o = Output.server msg) :
    ∀ o ∈ msgs, o.Readable := by
  intro o ho
  obtain ⟨msg, rfl⟩ := h o ho
  trivial

theorem readable_append {msgs out : List Output} (hmsgs : ∀ o ∈ msgs, o.Readable)
    (hout : ∀ o ∈ out, o.Readable) : ∀ o ∈ msgs ++ out, o.Readable := fun o ho =>
  (List.mem_append.mp ho).elim (hmsgs o) (hout o)

/-- A reception registers no device. -/
theorem named_edgeRcvPkt {env : Env} {s s' : EdgeState} {type : UInt32} {module : UInt64}
    {pkt : Buf} {size : UInt64} {ret : ℕ}
    (hrcv : (s.edgeRcvPkt env type module pkt size).val = some (ret, s')) {oid : Oid} {dev' : Dev}
    (hdev' : s'.gDevMap.get oid = some dev') : ∃ dev, s.gDevMap.get oid = some dev := by
  obtain ⟨k, file, msgs, _, rfl | ⟨dev, s₁, dev₁, hdev, hsteps, rfl⟩⟩ := edgeRcvPkt_cases hrcv
  · exact ⟨dev', hdev'⟩
  · obtain ⟨⟨_, _, hs₁⟩, hoid, _⟩ := hsteps.frame
    have hkey : dev.oid = pktOid type pkt size := Registry.key_of_get hdev
    have hput : (s₁.putDev dev₁).gDevMap.get oid = some dev' := hdev'
    rw [get_putDev _ (hoid.trans hkey), hs₁] at hput
    split at hput
    · next heq => exact ⟨dev, heq ▸ hdev⟩
    · next hne =>
      have hfresh : (({ s.advance k with pktFile := file } : EdgeState).freshDev dev).1.gDevMap.get
          oid = some dev' := hput
      rw [get_freshDev _ hkey, if_neg hne] at hfresh
      exact ⟨dev', hfresh⟩

theorem out_delDevInternal {s s' : EdgeState} {dev : Dev} (h : s.delDevInternal dev = some s') :
    s'.out = s.out := by
  unfold EdgeState.delDevInternal at h
  cases hpdt : s.deref dev.pdt with
  | none => simp [hpdt] at h
  | some pdt =>
      simp only [hpdt, Option.some.injEq] at h
      rw [← h]

theorem out_doDeviceAgeing {s s' : EdgeState} (h : s.doDeviceAgeing = some s') :
    s'.out = s.out := by
  rw [doDeviceAgeing_eq] at h
  split at h
  · obtain ⟨s₁, hscan, rfl⟩ := Option.map_eq_some_iff.mp h
    have hsame : s₁.out = s.tickClock.out :=
      ageScan_rel (R := fun s s' => s'.out = s.out) (fun _ => rfl)
        (fun _ _ _ h₁ h₂ => h₂.trans h₁) (fun _ _ _ _ _ hdel => out_delDevInternal hdel) hscan
    exact hsame
  · cases h
    rfl

theorem EdgeState.Readable.edgeRcvPkt {env : Env} {s s' : EdgeState} {type : UInt32}
    {module : UInt64} {pkt : Buf} {size : UInt64} {ret : ℕ} (h : s.Readable)
    (hrcv : (s.edgeRcvPkt env type module pkt size).val = some (ret, s')) : s'.Readable where
  named := fun oid dev' hdev' => by
    obtain ⟨dev, hdev⟩ := named_edgeRcvPkt hrcv hdev'
    exact h.named oid dev hdev
  sent := by
    rcases edgeRcvPkt_eq_some hrcv with rfl | ⟨_, _, file, ⟨lret, s₁⟩, hparse, hanswer⟩
    · exact h.sent
    · obtain ⟨msgs, hmsgs, hout⟩ := answer_snd env module pkt size (lret, s₁)
      rw [hanswer] at hout
      have hs' : s' = { s₁ with out := msgs ++ s₁.out } := hout
      have hreceived : ({ s.advance 1 with pktFile := file } : EdgeState).Readable :=
        ⟨h.named, h.sent⟩
      rw [hs']
      exact readable_append (readable_of_server hmsgs) (hreceived.parseG1Pkt hparse)

theorem EdgeState.Readable.command {s s' : EdgeState} {c : Command} (h : s.Readable)
    (hexec : (c.exec s).val = some s') : s'.Readable := by
  by_cases hc : c.IsDevice
  · cases c with
    | addDevice addr len linkType module topic =>
        simp only [Command.exec, Traced.val_bind, Option.bind_eq_some_iff,
          Traced.val_pure] at hexec
        obtain ⟨⟨dev, s₁⟩, hadd, heq⟩ := hexec
        cases heq
        rcases addDev_cases hadd with rfl | ⟨pdt, _, _, _, rfl⟩
        · exact h
        · refine ⟨fun oid dev' hdev' => ?_, ?_⟩
          · by_cases hoid : oid = oidOf linkType (addr.bytes 0 len.toNat)
            · exact ⟨_, _, hoid⟩
            · rw [get_addDevInternal_of_ne _ _ _ hoid] at hdev'
              exact h.named oid dev' hdev'
          · unfold EdgeState.addDevInternal
            split
            · exact h.sent
            · exact h.sent
    | delDevice addr len linkType =>
        rcases delDev_cases hexec with rfl | ⟨dev, _, hdel⟩
        · exact h
        · refine ⟨fun oid dev' hdev' => h.named oid dev' (get_of_delDevInternal hdel hdev'), ?_⟩
          rw [out_delDevInternal hdel]
          exact h.sent
    | _ => exact hc.elim
  · obtain ⟨attrs, pdts, next, rfl⟩ := Command.exec_frame hexec hc
    exact ⟨h.named, h.sent⟩

theorem EdgeState.Readable.update {s : EdgeState} (h : s.Readable) :
    s.doDeviceUpdate.Readable where
  named := fun oid dev' hdev' => by
    rcases doDeviceUpdate_cases s with ⟨last, _, heq⟩ | ⟨gDevMap, out, _, _, heq, hget, _⟩
    · rw [heq] at hdev'
      exact h.named oid dev' hdev'
    · rw [heq] at hdev'
      obtain ⟨dev, hdev, _⟩ := Option.map_eq_some_iff.mp ((hget oid).symm.trans hdev')
      exact h.named oid dev hdev
  sent := by
    obtain ⟨new, hout, hnew⟩ := s.out_doDeviceUpdate
    rw [hout]
    refine readable_append (fun o ho => ?_) h.sent
    cases o with
    | report oid attr scenerioId =>
        obtain ⟨dev, hdev, _⟩ := hnew oid attr scenerioId ho
        exact h.named oid dev hdev
    | server msg => trivial
    | device module pkt => trivial

theorem kept_readable (env : Env) : Kept env EdgeState.Readable where
  command := fun h hexec => h.command hexec
  packet := fun h hrcv => h.edgeRcvPkt hrcv
  ageing := fun h hage => by
    refine ⟨fun oid dev' hdev' => h.named oid dev' (get_of_doDeviceAgeing hage hdev'), ?_⟩
    rw [out_doDeviceAgeing hage]
    exact h.sent
  update := fun h => h.update
  control := fun h hctl => by
    obtain ⟨k, ctl, stat, tick, msgs, _, _, hmsgs, rfl⟩ := hctl
    exact ⟨h.named, readable_append (readable_of_server hmsgs) h.sent⟩

theorem readable_of_run {env : Env} {mac : List UInt8} {clock : ℕ → ℕ} {es : List Event}
    {s : EdgeState} (hrun : run (EdgeState.step env) (EdgeState.init mac clock) es = some s) :
    s.Readable := by
  refine (kept_readable env).run ⟨?_, ?_⟩ hrun
  · intro oid dev hdev
    simp [EdgeState.init] at hdev
  · simp [EdgeState.init]

/-! ## What is received -/

theorem whole_reportMembers (dt : Double F) (oid : Oid) (attr : AttrVal) (scenerioId : UInt32) :
    (Value.object (reportMembers dt oid attr scenerioId)).Whole dt := by
  have hlt := scenerioId.toNat_lt
  have hsmall : Small scenerioId.toNat := by
    unfold Json.Small
    omega
  exact ⟨trivial, trivial, trivial, trivial, trivial, ⟨_, hsmall, rfl, rfl⟩, trivial⟩

theorem reports_reportMembers (dt : Double F) {oid : Oid} {attr : AttrVal} {scenerioId : UInt32}
    (h : (Output.report oid attr scenerioId).Readable) :
    Reports dt (reportMembers dt oid attr scenerioId) oid attr scenerioId where
  userId := rfl
  oidIndex := by
    obtain ⟨type, addr, rfl⟩ := h
    exact ⟨_, rfl, Text.chars_of (ne_zero_oidOf type addr)⟩
  propertyTopic := ⟨_, rfl, Text.chars_of (ne_zero_hexPadded 0 attr.topic)⟩
  value := ⟨_, rfl, Text.chars_of attr.ne_zero_str⟩
  flag := rfl
  scenerioId := rfl

theorem parse_reportText {dt : Double F} (hdt : dt.Exact) (hformats : dt.Formats) {oid : Oid}
    {attr : AttrVal} {scenerioId : UInt32} (h : (Output.report oid attr scenerioId).Readable) :
    ∃ (text : Text) (root : Members F),
      (reportText dt oid attr scenerioId).val = some text.chars ∧
      (reportText dt oid attr scenerioId).Each Access.InBounds ∧
      parseWithOpts dt text true = .ok (.object root, []) ∧
      Reports dt root oid attr scenerioId := by
  let item : Value F := .object (reportMembers dt oid attr scenerioId)
  obtain ⟨hval, hbounds⟩ := item.writes hformats true 0
  exact ⟨item.textOf hformats true, _, hval, hbounds,
    parseWithOpts_text hdt (whole_reportMembers dt oid attr scenerioId) rfl,
    reports_reportMembers dt h⟩

/-- The receiver of a report, who parses its text, finds what was reported. -/
theorem report_received {dt : Double F} (hdt : dt.Exact) (hformats : dt.Formats) {env : Env}
    {mac : List UInt8} {clock : ℕ → ℕ} {es : List Event} {s : EdgeState}
    (hrun : run (EdgeState.step env) (EdgeState.init mac clock) es = some s) {oid : Oid}
    {attr : AttrVal} {scenerioId : UInt32} (hsent : .report oid attr scenerioId ∈ s.out) :
    ∃ (text : Text) (root : Members F),
      (reportText dt oid attr scenerioId).val = some text.chars ∧
      (reportText dt oid attr scenerioId).Each Access.InBounds ∧
      parseWithOpts dt text true = .ok (.object root, []) ∧
      Reports dt root oid attr scenerioId :=
  parse_reportText hdt hformats ((readable_of_run hrun).sent _ hsent)

/-- The reports in a list of outputs. -/
def reportsOf (out : List Output) : List (Oid × AttrVal × UInt32) :=
  out.filterMap fun o =>
    match o with
    | .report oid attr scenerioId => some (oid, attr, scenerioId)
    | _ => none

theorem mem_reportsOf {out : List Output} {oid : Oid} {attr : AttrVal} {scenerioId : UInt32} :
    (oid, attr, scenerioId) ∈ reportsOf out ↔ .report oid attr scenerioId ∈ out := by
  simp only [reportsOf, List.mem_filterMap]
  constructor
  · rintro ⟨o, ho, heq⟩
    cases o <;> simp_all
  · exact fun h => ⟨_, h, rfl⟩

/-- A packet with three values between two passes. -/
def threeReportsRun : List Event :=
  threeAttrsRun ++ [.update, .packet 0 0 (Buf.ofBytes threeAttrsPkt) 17, .update]

def threeReportsClock (i : ℕ) : ℕ := 20 * i + 1

theorem report_received_three :
    ∃ s oid attr scenerioId, run (EdgeState.step Env.plain) (EdgeState.init [] threeReportsClock)
        threeReportsRun = some s ∧ .report oid attr scenerioId ∈ s.out ∧
      ∃ (text : Text) (root : Members ℤ),
        (reportText intDouble oid attr scenerioId).val = some text.chars ∧
        (reportText intDouble oid attr scenerioId).Each Access.InBounds ∧
        parseWithOpts intDouble text true = .ok (.object root, []) ∧
        Reports intDouble root oid attr scenerioId := by
  have heval : (run (EdgeState.step Env.plain) (EdgeState.init [] threeReportsClock)
      threeReportsRun).any (fun s => ((reportsOf s.out)[0]?).isSome) = true := by
    decide +kernel
  simp only [Option.any_eq_true, Option.isSome_iff_exists, Prod.exists] at heval
  obtain ⟨s, hrun, oid, attr, scenerioId, hget⟩ := heval
  have hsent := mem_reportsOf.mp (List.mem_of_getElem? hget)
  exact ⟨s, oid, attr, scenerioId, hrun, hsent,
    report_received exact_intDouble formats_intDouble hrun hsent⟩

theorem ofInt_inj {dt : Double F} (hdt : dt.Exact) {m n : ℤ} (hm : Small m) (hn : Small n)
    (h : dt.ofInt m = dt.ofInt n) : m = n := by
  have hmn := hdt.le m n hm hn
  have hnm := hdt.le n m hn hm
  rw [h, hdt.le n n hn hn] at hmn hnm
  simp only [le_refl, decide_true] at hmn hnm
  exact le_antisymm (of_decide_eq_true hmn.symm) (of_decide_eq_true hnm.symm)

/-- An object is the one of a single report. -/
theorem Reports.unique {dt : Double F} (hdt : dt.Exact) {root : Members F} {oid oid' : Oid}
    {attr attr' : AttrVal} {scenerioId scenerioId' : UInt32}
    (h : Reports dt root oid attr scenerioId) (h' : Reports dt root oid' attr' scenerioId') :
    oid = oid' ∧ attr.topic = attr'.topic ∧ attr.str = attr'.str ∧ scenerioId = scenerioId' := by
  obtain ⟨text, hget, hoid⟩ := h.oidIndex
  obtain ⟨text', hget', hoid'⟩ := h'.oidIndex
  obtain rfl : text = text' := by simpa [hget] using hget'
  obtain ⟨ttext, htget, htopic⟩ := h.propertyTopic
  obtain ⟨ttext', htget', htopic'⟩ := h'.propertyTopic
  obtain rfl : ttext = ttext' := by simpa [htget] using htget'
  obtain ⟨vtext, hvget, hvalue⟩ := h.value
  obtain ⟨vtext', hvget', hvalue'⟩ := h'.value
  obtain rfl : vtext = vtext' := by simpa [hvget] using hvget'
  have hnumber := Option.some.inj (h.scenerioId.symm.trans h'.scenerioId)
  simp only [createNumber, Value.number.injEq] at hnumber
  have hsmall : ∀ x : UInt32, Small x.toNat := fun x => by
    have hlt := x.toNat_lt
    unfold Json.Small
    omega
  have hscenerio := ofInt_inj hdt (hsmall _) (hsmall _) hnumber.2
  refine ⟨?_, hexPadded_inj (htopic.symm.trans htopic'),
    String.toList_inj.mp (hvalue.symm.trans hvalue'), UInt32.toNat_inj.mp (by omega)⟩
  have hchars := hoid.symm.trans hoid'
  cases oid
  cases oid'
  simpa using hchars

/-- Reports with the same text are of the same text of a value in the same
scenario. -/
theorem reportText_inj {dt : Double F} (hdt : dt.Exact) (hformats : dt.Formats) {env : Env}
    {mac : List UInt8} {clock : ℕ → ℕ} {es : List Event} {s : EdgeState}
    (hrun : run (EdgeState.step env) (EdgeState.init mac clock) es = some s) {oid oid' : Oid}
    {attr attr' : AttrVal} {scenerioId scenerioId' : UInt32}
    (hsent : .report oid attr scenerioId ∈ s.out) (hsent' : .report oid' attr' scenerioId' ∈ s.out)
    (htext : (reportText dt oid attr scenerioId).val =
      (reportText dt oid' attr' scenerioId').val) :
    oid = oid' ∧ attr.topic = attr'.topic ∧ attr.str = attr'.str ∧ scenerioId = scenerioId' := by
  have hreadable := (readable_of_run hrun).sent
  obtain ⟨text, root, hval, _, hparse, hreports⟩ :=
    parse_reportText hdt hformats (hreadable _ hsent)
  obtain ⟨text', root', hval', _, hparse', hreports'⟩ :=
    parse_reportText hdt hformats (hreadable _ hsent')
  have hchars : text.chars = text'.chars :=
    Option.some.inj (hval.symm.trans (htext.trans hval'))
  obtain rfl : text = text' := by
    cases text
    cases text'
    simpa using hchars
  obtain rfl : root = root' := by simpa [hparse] using hparse'
  exact hreports.unique hdt hreports'

/-- Two attributes of a packet are told apart. -/
theorem reportText_inj_three :
    ∃ s oid attr oid' attr' scenerioId scenerioId',
      run (EdgeState.step Env.plain) (EdgeState.init [] threeReportsClock) threeReportsRun =
        some s ∧
      .report oid attr scenerioId ∈ s.out ∧ .report oid' attr' scenerioId' ∈ s.out ∧
      (reportText intDouble oid attr scenerioId).val ≠
        (reportText intDouble oid' attr' scenerioId').val := by
  have heval : (run (EdgeState.step Env.plain) (EdgeState.init [] threeReportsClock)
      threeReportsRun).any (fun s => (reportsOf s.out)[0]?.any fun r =>
        (reportsOf s.out)[1]?.any fun r' => r.2.1.topic != r'.2.1.topic) = true := by
    decide +kernel
  simp only [Option.any_eq_true, Prod.exists, bne_iff_ne] at heval
  obtain ⟨s, hrun, oid, attr, scenerioId, hget, oid', attr', scenerioId', hget', hne⟩ := heval
  have hsent := mem_reportsOf.mp (List.mem_of_getElem? hget)
  have hsent' := mem_reportsOf.mp (List.mem_of_getElem? hget')
  refine ⟨s, oid, attr, oid', attr', scenerioId, scenerioId', hrun, hsent, hsent', fun htext => ?_⟩
  have hsame := reportText_inj exact_intDouble formats_intDouble hrun hsent hsent' htext
  exact hne hsame.2.1

end EceLib
