import EceLib.Edge.Accesses
import EceLib.Edge.Tokens

/-!
# Where the attribute values come from

The tokens of a format lie one behind the other within the size the format was
declared with.  A payload is as long as the message says, or shorter if the
packet ends before, and `parse_msg` does not compare the two: whether the
values come from the payload is decided by the last token alone.
-/

namespace EceLib

open Support

/-! ## Token lists of reachable states -/

/-- The tokens of each format of a product lie within the size of the format. -/
def EdgePdt.FmtsLaid (pdt : EdgePdt) : Prop :=
  ∀ key fmt, pdt.fmtMap.get key = some fmt → TokensLaid fmt.size 0 fmt.token

def EdgeState.FmtsLaid (s : EdgeState) : Prop :=
  ∀ topic pdt, s.gPdtMap.get topic = some pdt → pdt.FmtsLaid

theorem fmtKept_tokensLaid : FmtKept fun _ fmt => TokensLaid fmt.size 0 fmt.token where
  fresh := fun _ _ _ _ _ _ _ => trivial
  add := fun _ _ _ hlaid htokens => TokensLaid.insertToken hlaid htokens
  del := fun _ hlaid => hlaid.eraseP _

theorem kept_fmtsLaid (env : Env) : Kept env EdgeState.FmtsLaid := fmtKept_tokensLaid.kept env

theorem fmtsLaid_init (mac : List UInt8) (clock : ℕ → ℕ) :
    (EdgeState.init mac clock).FmtsLaid := by
  intro topic pdt h
  simp [EdgeState.init] at h

/-! ## The token loop -/

/-- An access to the payload stays in its first `n` bytes. -/
def PayloadWithin (n : ℕ) (a : Access Buffer) : Prop := a.buf = .payload → a.off + a.len ≤ n

theorem onlyOf_payloadWithin (n : ℕ) : OnlyOf [.payload] (PayloadWithin n) :=
  fun _ ha hbuf => absurd (List.mem_singleton.mpr hbuf) ha

/-- The loop reads what the tokens cover. -/
theorem tokenLoop_within {n : ℕ} {payload : Buf} {payloadLen : ℕ} {tokens : List G1Token}
    (h : ∀ token ∈ tokens, token.offset + token.len ≤ n) (s : EdgeState) (dev : Dev) :
    (tokenLoop payload payloadLen tokens s dev).Each (PayloadWithin n) := by
  induction tokens generalizing s dev with
  | nil => exact Traced.each_pure _
  | cons token next ih =>
      refine Traced.each_touch_bind.mpr ⟨fun _ => h token (by simp), ?_⟩
      refine Traced.each_bind.mpr
        ⟨(onlyOf_payloadWithin n).each (touches_uptDevAttr _ _ _ _) (by decide), fun r _ => ?_⟩
      exact ih (fun t ht => h t (by simp [ht])) _ _

/-- If the loop comes to its end it has read what every token covers. -/
theorem forall_of_tokenLoop_within {n : ℕ} {payload : Buf} {payloadLen : ℕ}
    {tokens : List G1Token} {s : EdgeState} {dev : Dev}
    (hval : (tokenLoop payload payloadLen tokens s dev).val.isSome)
    (h : (tokenLoop payload payloadLen tokens s dev).Each (PayloadWithin n)) :
    ∀ token ∈ tokens, token.offset + token.len ≤ n := by
  induction tokens generalizing s dev with
  | nil => simp
  | cons token next ih =>
      unfold tokenLoop at hval h
      rw [Traced.each_touch_bind, Traced.each_bind] at h
      obtain ⟨htoken, _, hrest⟩ := h
      simp only [Traced.val_bind, Traced.val_touch, Option.bind_some] at hval
      cases hupt : (s.uptDevAttr dev token.topic (payload.bytes token.offset token.len)).val with
      | none => simp [hupt] at hval
      | some r =>
          rw [hupt, Option.bind_some] at hval
          have hnext := ih hval (hrest r hupt)
          intro t ht
          rcases List.mem_cons.mp ht with rfl | ht
          · exact htoken rfl
          · exact hnext t ht

/-! ## Receptions -/

/-- The buffers that are used on the way to the token loop, and for the answer. -/
def receiveBuffers : List Buffer := [.pkt, .log, .addr, .oidTmp, .edgePkt]

/-- A packet is received, its device and the format for it are found, and the
header of its message is there. -/
structure EdgeState.Delivered (s : EdgeState) (type : UInt32) (pkt : Buf) (size : UInt64)
    (fmt : G1Fmt) : Prop where
  on : s.ctl.function = edgeFuncOn
  nonempty : size ≠ 0
  accepted : (pktAddress pkt size).1 ≠ 0
  levels : ¬ (pktAddress pkt size).2.Gap
  header : g1MsgSize ≤ (pktMsgSize pkt size).toNat
  format : s.pktFmt type pkt size = some fmt

instance (s : EdgeState) (type : UInt32) (pkt : Buf) (size : UInt64) (fmt : G1Fmt) :
    Decidable (s.Delivered type pkt size fmt) :=
  decidable_of_iff
    (s.ctl.function = edgeFuncOn ∧ size ≠ 0 ∧ (pktAddress pkt size).1 ≠ 0 ∧
      ¬ (pktAddress pkt size).2.Gap ∧ g1MsgSize ≤ (pktMsgSize pkt size).toNat ∧
      s.pktFmt type pkt size = some fmt)
    ⟨fun ⟨h₁, h₂, h₃, h₄, h₅, h₆⟩ => ⟨h₁, h₂, h₃, h₄, h₅, h₆⟩,
      fun ⟨h₁, h₂, h₃, h₄, h₅, h₆⟩ => ⟨h₁, h₂, h₃, h₄, h₅, h₆⟩⟩

/-- The payload of a packet: what the message says, or what is left of the
packet behind the address and the header of the message. -/
def payloadSize (pkt : Buf) (size : UInt64) : ℕ :=
  min ((pktMsg pkt size).mem 5).toNat (size.toNat - (2 + (pktAddress pkt size).1 + g1MsgSize))

/-- The bytes behind the header of the message. -/
def pktPayload (pkt : Buf) (size : UInt64) : Buf := (pktMsg pkt size).drop g1MsgSize

/-- What a device stores: its product and its attributes. -/
def Dev.values (dev : Dev) : PdtPtr × Registry UInt32 AttrVal := (dev.pdt, dev.attrMap)

namespace EdgeState

/-- The device and the format that such a reception works with. -/
theorem Delivered.exists_dev {s : EdgeState} {type : UInt32} {pkt : Buf} {size : UInt64}
    {fmt : G1Fmt} (h : s.Delivered type pkt size fmt) :
    ∃ dev pdt, s.gDevMap.get (pktOid type pkt size) = some dev ∧ s.deref dev.pdt = some pdt ∧
      s.getG1Fmt pdt.topic (msgKey (pktMsg pkt size)) = some fmt := by
  obtain ⟨dev, hdev, hbind⟩ := Option.bind_eq_some_iff.mp h.format
  obtain ⟨pdt, hpdt, hfmt⟩ := Option.bind_eq_some_iff.mp hbind
  exact ⟨dev, pdt, hdev, hpdt, hfmt⟩

/-- The record of packets has nothing to do with it. -/
theorem Delivered.received {s : EdgeState} {type : UInt32} {pkt : Buf} {size : UInt64}
    {fmt : G1Fmt} (h : s.Delivered type pkt size fmt) (env : Env) (module : UInt64) :
    (s.received env type module pkt size).Delivered type pkt size fmt := by
  obtain ⟨file, hfile⟩ := received_eq env s type module pkt size
  rw [hfile]
  exact ⟨h.on, h.nonempty, h.accepted, h.levels, h.header, h.format⟩

/-- `parse_g1_pkt` then reads the tokens of the format and looks at the rules. -/
theorem Delivered.val_parseG1Pkt {s : EdgeState} {type : UInt32} {pkt : Buf} {size : UInt64}
    {fmt : G1Fmt} (h : s.Delivered type pkt size fmt) (env : Env) {dev : Dev}
    (hdev : s.gDevMap.get (pktOid type pkt size) = some dev) :
    (s.parseG1Pkt env type pkt size).val =
      (EceLib.tokenLoop (pktPayload pkt size)
        (msgPayloadLen (pktMsg pkt size) (pktMsgSize pkt size)) fmt.token (s.freshDev dev).1
        (s.freshDev dev).2).val.bind fun r =>
          ((r.1.putDev r.2).checkRuleEngine env r.2).val.map fun s => (0, s) := by
  obtain ⟨dev', pdt, hdev', hpdt, hfmt⟩ := h.exists_dev
  obtain rfl : dev' = dev := Option.some.inj (hdev'.symm.trans hdev)
  have hpdt₁ : (s.freshDev dev').1.deref (s.freshDev dev').2.pdt = some pdt := hpdt
  have hfmt₁ : (s.freshDev dev').1.getG1Fmt pdt.topic (msgKey (pktMsg pkt size)) = some fmt := hfmt
  rw [EdgeState.val_parseG1Pkt, if_neg h.accepted, if_neg h.levels, hdev]
  simp only
  rw [val_parseMsg, if_neg (Nat.not_lt.mpr h.header), hpdt₁, Option.bind_some]
  simp only [hfmt₁]
  rfl

/-- What a property of accesses comes down to that can only fail in the token
loop and in the rule engine. -/
theorem Delivered.each_edgeRcvPkt {s : EdgeState} {type : UInt32} {pkt : Buf} {size : UInt64}
    {fmt : G1Fmt} (h : s.Delivered type pkt size fmt) (env : Env) (module : UInt64) {dev : Dev}
    (hdev : s.gDevMap.get (pktOid type pkt size) = some dev) {P : Access Buffer → Prop}
    (hP : ∀ a, a.buf ∈ receiveBuffers → P a) :
    (s.edgeRcvPkt env type module pkt size).Each P ↔
      (EceLib.tokenLoop (pktPayload pkt size)
        (msgPayloadLen (pktMsg pkt size) (pktMsgSize pkt size)) fmt.token
        ((s.received env type module pkt size).freshDev dev).1
        ((s.received env type module pkt size).freshDev dev).2).Each P ∧
      ∀ r, (EceLib.tokenLoop (pktPayload pkt size)
          (msgPayloadLen (pktMsg pkt size) (pktMsgSize pkt size)) fmt.token
          ((s.received env type module pkt size).freshDev dev).1
          ((s.received env type module pkt size).freshDev dev).2).val = some r →
        ((r.1.putDev r.2).checkRuleEngine env r.2).Each P := by
  have hreceived := h.received env module
  obtain ⟨file, hfile⟩ := received_eq env s type module pkt size
  have hdev₁ : (s.received env type module pkt size).gDevMap.get (pktOid type pkt size) =
      some dev := by
    rw [hfile]
    exact hdev
  obtain ⟨dev', pdt, hdev', hpdt, hfmt⟩ := hreceived.exists_dev
  obtain rfl : dev' = dev := Option.some.inj (hdev'.symm.trans hdev₁)
  have hpdt₁ : ((s.received env type module pkt size).freshDev dev').1.deref
      ((s.received env type module pkt size).freshDev dev').2.pdt = some pdt := hpdt
  have hfmt₁ : ((s.received env type module pkt size).freshDev dev').1.getG1Fmt pdt.topic
      (msgKey (pktMsg pkt size)) = some fmt := hfmt
  rw [each_edgeRcvPkt_iff, each_parseG1Pkt_iff]
  simp only [h.on, h.nonempty, h.accepted, h.levels, ne_eq, not_false_eq_true, true_imp_iff,
    hdev₁, Option.some.injEq, forall_eq', each_parseMsg_iff, h.header, hpdt₁, hfmt₁]
  constructor
  · intro hall
    exact hall.1.2.2.2.2.2.2
  · intro hmsg
    refine ⟨⟨hP _ (by simp [receiveBuffers]), (touches_logLevels _ _).each fun a ha => hP a ?_,
      (touches_getDev _ _ _ _).each fun a ha => hP a ?_, hP _ (by simp [receiveBuffers]),
      hP _ (by simp [receiveBuffers]), hP _ (by simp [receiveBuffers]), hmsg⟩, fun _ _ _ =>
      ⟨hP _ (by simp [receiveBuffers]), hP _ (by simp [receiveBuffers])⟩⟩
    · exact List.mem_append_left [Buffer.addr, .oidTmp, .edgePkt] ha
    · exact List.mem_append_right [Buffer.pkt, .log] (List.mem_append_left [Buffer.edgePkt] ha)

/-- A packet that is not delivered gets neither to the token loop nor to the rule
engine. -/
theorem each_edgeRcvPkt_of_not_delivered {s : EdgeState} {type : UInt32} {pkt : Buf}
    {size : UInt64} (hnot : ∀ fmt, ¬ s.Delivered type pkt size fmt) (env : Env)
    (module : UInt64) {P : Access Buffer → Prop} (hP : ∀ a, a.buf ∈ receiveBuffers → P a) :
    (s.edgeRcvPkt env type module pkt size).Each P := by
  obtain ⟨file, hfile⟩ := received_eq env s type module pkt size
  rw [each_edgeRcvPkt_iff]
  intro hon hne
  refine ⟨?_, fun _ _ _ => ⟨hP _ (by simp [receiveBuffers]), hP _ (by simp [receiveBuffers])⟩⟩
  rw [each_parseG1Pkt_iff]
  refine ⟨hP _ (by simp [receiveBuffers]), fun hl =>
    ⟨(touches_logLevels _ _).each fun a ha => hP a ?_, fun hgap =>
    ⟨(touches_getDev _ _ _ _).each fun a ha => hP a ?_, fun dev hdev => ?_⟩⟩⟩
  · exact List.mem_append_left [Buffer.addr, .oidTmp, .edgePkt] ha
  · exact List.mem_append_right [Buffer.pkt, .log] (List.mem_append_left [Buffer.edgePkt] ha)
  · rw [each_parseMsg_iff]
    intro hheader
    refine ⟨hP _ (by simp [receiveBuffers]), hP _ (by simp [receiveBuffers]),
      hP _ (by simp [receiveBuffers]), fun pdt hpdt fmt hfmt => ?_⟩
    rw [hfile] at hdev hpdt hfmt
    have hdev₀ : s.gDevMap.get (pktOid type pkt size) = some dev := hdev
    have hpdt₀ : s.deref dev.pdt = some pdt := hpdt
    refine absurd ⟨hon, hne, hl, hgap, hheader, ?_⟩ (hnot fmt)
    rw [pktFmt, hdev₀, Option.bind_some, hpdt₀]
    exact hfmt

end EdgeState

/-- If the event is a packet that is delivered, the condition holds of the
device, the format and the payload. -/
def Event.OnDelivery (C : EdgeState → Dev → G1Fmt → Buf → Prop) (s : EdgeState) : Event → Prop
  | .packet type _ pkt size => ∀ fmt dev, s.Delivered type pkt size fmt →
      s.gDevMap.get (pktOid type pkt size) = some dev → C s dev fmt (pktPayload pkt size)
  | _ => True

/-- Accesses that can only go wrong in the token loop and in the rule engine
come down to a condition on packets that are delivered. -/
theorem EdgeState.edgeRcvPkt_iff_onDelivery {P : Access Buffer → Prop}
    {C : EdgeState → Dev → G1Fmt → Buf → Prop} {env : Env} {s : EdgeState} {type : UInt32}
    {module : UInt64} {pkt : Buf} {size : UInt64}
    (hreceive : ∀ a, a.buf ∈ receiveBuffers → P a)
    (hpacket : ∀ fmt dev, s.Delivered type pkt size fmt →
      s.gDevMap.get (pktOid type pkt size) = some dev →
      ((s.edgeRcvPkt env type module pkt size).Each P ↔ C s dev fmt (pktPayload pkt size))) :
    (s.edgeRcvPkt env type module pkt size).Each P ↔
      Event.OnDelivery C s (.packet type module pkt size) := by
  by_cases hdelivered : ∃ fmt, s.Delivered type pkt size fmt
  · obtain ⟨fmt, hdelivered⟩ := hdelivered
    obtain ⟨dev, _, hdev, _⟩ := hdelivered.exists_dev
    rw [hpacket fmt dev hdelivered hdev]
    constructor
    · intro h fmt' dev' hdelivered' hdev'
      obtain rfl := Option.some.inj (hdelivered.format.symm.trans hdelivered'.format)
      obtain rfl := Option.some.inj (hdev.symm.trans hdev')
      exact h
    · exact fun h => h fmt dev hdelivered hdev
  · have hnot : ∀ fmt, ¬ s.Delivered type pkt size fmt := fun fmt hfmt =>
      hdelivered ⟨fmt, hfmt⟩
    refine iff_of_true (EdgeState.each_edgeRcvPkt_of_not_delivered hnot env module hreceive) ?_
    intro fmt _ hfmt
    exact absurd hfmt (hnot fmt)

/-- The same for all events, if the accesses cannot go wrong in a command
either. -/
theorem Event.eachAccess_iff_onDelivery {P : Access Buffer → Prop}
    {C : EdgeState → Dev → G1Fmt → Buf → Prop} {env : Env} {s : EdgeState}
    (hcommand : ∀ a, a.buf ∈ commandBuffers → P a)
    (hreceive : ∀ a, a.buf ∈ receiveBuffers → P a)
    (hpacket : ∀ type module pkt size fmt dev, s.Delivered type pkt size fmt →
      s.gDevMap.get (pktOid type pkt size) = some dev →
      ((s.edgeRcvPkt env type module pkt size).Each P ↔ C s dev fmt (pktPayload pkt size)))
    (e : Event) : e.EachAccess P env s ↔ e.OnDelivery C s := by
  cases e with
  | command c => exact iff_of_true ((touches_exec s c).each hcommand) trivial
  | message msg len => exact iff_of_true ((touches_mgtRcvMsg s msg len).each hcommand) trivial
  | packet type module pkt size =>
      exact EdgeState.edgeRcvPkt_iff_onDelivery hreceive (hpacket type module pkt size)
  | _ => exact iff_of_true trivial trivial

namespace EdgeState

/-- Such a reception has only come to its end if its token loop has. -/
theorem Delivered.isSome_tokenLoop {s : EdgeState} {type : UInt32} {pkt : Buf}
    {size : UInt64} {fmt : G1Fmt} (h : s.Delivered type pkt size fmt) (env : Env)
    (module : UInt64) {dev : Dev} (hdev : s.gDevMap.get (pktOid type pkt size) = some dev)
    (hval : (s.edgeRcvPkt env type module pkt size).val.isSome) :
    (EceLib.tokenLoop (pktPayload pkt size)
      (msgPayloadLen (pktMsg pkt size) (pktMsgSize pkt size)) fmt.token
      ((s.received env type module pkt size).freshDev dev).1
      ((s.received env type module pkt size).freshDev dev).2).val.isSome := by
  obtain ⟨file, hfile⟩ := received_eq env s type module pkt size
  have hdev₁ : (s.received env type module pkt size).gDevMap.get (pktOid type pkt size) =
      some dev := by
    rw [hfile]
    exact hdev
  rw [val_edgeRcvPkt env type module pkt h.on h.nonempty, Option.isSome_map,
    (h.received env module).val_parseG1Pkt env hdev₁] at hval
  exact Option.isSome_of_isSome_bind hval

theorem get_putDev (s : EdgeState) {dev : Dev} {oid : Oid} (hoid : dev.oid = oid) (i : Oid) :
    (s.putDev dev).gDevMap.get i = if i = oid then some dev else s.gDevMap.get i := by
  subst hoid
  exact Registry.get_put s.gDevMap dev i

theorem get_freshDev (s : EdgeState) {dev : Dev} {oid : Oid} (hoid : dev.oid = oid) (i : Oid) :
    (s.freshDev dev).1.gDevMap.get i =
      if i = oid then some (s.freshDev dev).2 else s.gDevMap.get i := by
  subst hoid
  exact Registry.get_put s.gDevMap _ i

theorem values_freshDev (s : EdgeState) {dev : Dev} {oid : Oid}
    (hget : s.gDevMap.get oid = some dev) (i : Oid) :
    ((s.freshDev dev).1.gDevMap.get i).map Dev.values = (s.gDevMap.get i).map Dev.values := by
  rw [get_freshDev s (Registry.key_of_get hget)]
  by_cases hi : i = oid
  · rw [if_pos hi, hi, hget]
    rfl
  · rw [if_neg hi]

/-- A packet that is delivered has the tokens of its format read into its
device. -/
theorem Delivered.edgeRcvPkt {env : Env} {s s' : EdgeState} {type : UInt32} {module : UInt64}
    {pkt : Buf} {size : UInt64} {fmt : G1Fmt} {ret : ℕ} (hdelivered : s.Delivered type pkt size fmt)
    (h : (s.edgeRcvPkt env type module pkt size).val = some (ret, s')) :
    ∃ dev ts s₁ s₂ dev₂, s.gDevMap.get (pktOid type pkt size) = some dev ∧
      s₁.gAttrMap = s.gAttrMap ∧
      (EceLib.tokenLoop (pktPayload pkt size)
        (msgPayloadLen (pktMsg pkt size) (pktMsgSize pkt size)) fmt.token s₁
        { dev with ts := ts }).val = some (s₂, dev₂) ∧
      ∀ oid, s'.gDevMap.get oid =
        if oid = pktOid type pkt size then some dev₂ else s.gDevMap.get oid := by
  have hreceived := hdelivered.received env module
  obtain ⟨file, hfile⟩ := received_eq env s type module pkt size
  rw [val_edgeRcvPkt env type module pkt hdelivered.on hdelivered.nonempty,
    Option.map_eq_some_iff] at h
  obtain ⟨r, hparse, hanswer⟩ := h
  obtain ⟨msgs, _, hout⟩ := answer_snd env module pkt size r
  rw [hanswer] at hout
  obtain ⟨dev, _, hdev, _⟩ := hdelivered.exists_dev
  have hoid : dev.oid = pktOid type pkt size := Registry.key_of_get hdev
  rw [hfile] at hparse hreceived
  rw [hreceived.val_parseG1Pkt env hdev] at hparse
  generalize hfresh : ({ s.advance 1 with pktFile := file } : EdgeState).freshDev dev = fresh
    at hparse
  have hdev₁ : fresh.2 = { dev with ts := s.clock 1 } := by
    rw [← hfresh]
    simp only [freshDev, now, advance, Nat.zero_add]
  have hattr₁ : fresh.1.gAttrMap = s.gAttrMap := by rw [← hfresh]; rfl
  have hget₁ : ∀ oid, oid ≠ pktOid type pkt size →
      fresh.1.gDevMap.get oid = s.gDevMap.get oid := fun oid hne => by
    rw [← hfresh, get_freshDev _ hoid, if_neg hne]
    rfl
  simp only [Option.bind_eq_some_iff, Option.map_eq_some_iff] at hparse
  obtain ⟨⟨s₂, dev₂⟩, hloop, s₃, hrule, rfl⟩ := hparse
  obtain ⟨⟨k, out, hs₂⟩, hoid₂, _⟩ := (tokenLoop_devSteps hloop).frame
  have hget₃ : s₃.gDevMap = (s₂.putDev dev₂).gDevMap := by
    rcases checkRuleEngine_cases hrule with rfl | ⟨out, rfl⟩
    · rfl
    · rfl
  rw [hdev₁] at hloop hoid₂
  refine ⟨dev, s.clock 1, fresh.1, s₂, dev₂, hdev, hattr₁, hloop, fun oid => ?_⟩
  have hsent : s' = { s₃ with out := msgs ++ s₃.out } := hout
  have hget : s'.gDevMap = s₃.gDevMap := by rw [hsent]
  rw [hget, hget₃, get_putDev s₂ (hoid₂.trans hoid)]
  by_cases hoid' : oid = pktOid type pkt size
  · rw [if_pos hoid', if_pos hoid']
  · rw [if_neg hoid', if_neg hoid', hs₂]
    exact hget₁ oid hoid'

/-- A packet that is not delivered changes no values. -/
theorem values_edgeRcvPkt {env : Env} {s s' : EdgeState} {type : UInt32} {module : UInt64}
    {pkt : Buf} {size : UInt64} {ret : ℕ} (hnot : ∀ fmt, ¬ s.Delivered type pkt size fmt)
    (h : (s.edgeRcvPkt env type module pkt size).val = some (ret, s')) (oid : Oid) :
    (s'.gDevMap.get oid).map Dev.values = (s.gDevMap.get oid).map Dev.values := by
  rcases edgeRcvPkt_eq_some h with rfl | ⟨hon, hsize, file, r, hparse, hanswer⟩
  · rfl
  obtain ⟨msgs, _, hout⟩ := answer_snd env module pkt size r
  rw [hanswer] at hout
  have hsent : s' = { r.2 with out := msgs ++ r.2.out } := hout
  have hsame : s'.gDevMap = r.2.gDevMap := by rw [hsent]
  rw [hsame]
  rw [val_parseG1Pkt] at hparse
  split at hparse
  · cases hparse
    rfl
  rename_i haccepted
  split at hparse
  · cases hparse
  rename_i hlevels
  split at hparse
  · cases hparse
    rfl
  rename_i dev hdev
  have hfresh := values_freshDev ({ s.advance 1 with pktFile := file } : EdgeState) hdev oid
  rw [val_parseMsg] at hparse
  split at hparse
  · cases hparse
    exact hfresh
  rename_i hheader
  obtain ⟨pdt, hpdt, hmsg⟩ := Option.bind_eq_some_iff.mp hparse
  split at hmsg
  · cases hmsg
    exact hfresh
  · rename_i fmt hfmt
    -- the format was found, so the packet is delivered
    refine absurd ⟨hon, hsize, haccepted, hlevels, Nat.not_lt.mp hheader, ?_⟩ (hnot fmt)
    exact Option.bind_eq_some_iff.mpr ⟨dev, hdev, Option.bind_eq_some_iff.mpr ⟨pdt, hpdt, hfmt⟩⟩

end EdgeState

/-- The last token ends within `n` bytes. -/
def G1Fmt.LastTokenFits (fmt : G1Fmt) (n : ℕ) : Prop :=
  ∀ last, fmt.token.getLast? = some last → last.offset + last.len ≤ n

theorem TokensLaid.forall_le_iff {size lo n : ℕ} {fmt : G1Fmt}
    (h : TokensLaid size lo fmt.token) :
    (∀ token ∈ fmt.token, token.offset + token.len ≤ n) ↔ fmt.LastTokenFits n := by
  constructor
  · intro hall last hlast
    exact hall last (List.mem_of_getLast? hlast)
  · intro hfits token hmem
    obtain ⟨last, hlast⟩ : ∃ last, fmt.token.getLast? = some last := by
      cases hlast : fmt.token.getLast? with
      | none =>
          rw [List.getLast?_eq_none_iff.mp hlast] at hmem
          cases hmem
      | some last => exact ⟨last, rfl⟩
    exact (h.le_getLast hlast token hmem).trans (hfits last hlast)

/-- In every state that can be reached, and for every packet whose device and
format are found, all tokens lie in the payload precisely when the last one
does.  Then `parse_msg` reads nothing outside the payload, and only then it can
come to its end without that. -/
theorem tokens_within_payload_iff (env : Env) (mac : List UInt8) (clock : ℕ → ℕ)
    {es : List Event} {s : EdgeState}
    (hrun : run (EdgeState.step env) (EdgeState.init mac clock) es = some s)
    {type : UInt32} {pkt : Buf} {size : UInt64} {fmt : G1Fmt}
    (h : s.Delivered type pkt size fmt) (module : UInt64) :
    ((∀ token ∈ fmt.token, token.offset + token.len ≤ payloadSize pkt size) ↔
      fmt.LastTokenFits (payloadSize pkt size)) ∧
    (fmt.LastTokenFits (payloadSize pkt size) →
      (s.edgeRcvPkt env type module pkt size).Each (PayloadWithin (payloadSize pkt size))) ∧
    ((s.edgeRcvPkt env type module pkt size).val.isSome →
      (s.edgeRcvPkt env type module pkt size).Each (PayloadWithin (payloadSize pkt size)) →
      fmt.LastTokenFits (payloadSize pkt size)) := by
  have hfmts : s.FmtsLaid := (kept_fmtsLaid env).run (fmtsLaid_init mac clock) hrun
  obtain ⟨dev, pdt, hdev, hpdt, hfmt⟩ := h.exists_dev
  have htopic : s.gPdtMap.get pdt.topic = some pdt := by
    obtain ⟨hget, hptr⟩ := EdgeState.deref_eq_some_iff.mp hpdt
    rwa [← hptr] at hget
  have hget : pdt.fmtMap.get (msgKey (pktMsg pkt size)) = some fmt := by
    simpa only [EdgeState.getG1Fmt, EdgeState.getPdt, htopic] using hfmt
  have hiff := (hfmts _ _ htopic _ _ hget).forall_le_iff (n := payloadSize pkt size)
  have hown := onlyOf_payloadWithin (payloadSize pkt size)
  rw [h.each_edgeRcvPkt env module hdev (hown.of_mem (by decide))]
  refine ⟨hiff, fun hfits => ⟨?_, fun r _ => ?_⟩, fun hsome hwithin => ?_⟩
  · exact tokenLoop_within (hiff.mpr hfits) _ _
  · exact hown.each (touches_checkRuleEngine env _ _) (by decide)
  · exact hiff.mp (forall_of_tokenLoop_within (h.isSome_tokenLoop env module hdev hsome) hwithin.1)

/-- A device, and a format of ten bytes with one token at offset 4. -/
def shortPayloadRun : List Event :=
  [.command (.addProduct 5 1),
    .command (.addDevice (Buf.ofBytes (List.replicate mgtAddrSize 1)) 6 0 0 5),
    .command (.addPacketFormat (Buf.ofBytes (List.replicate mgtPktSize 0)) 10 5 7 10 0 10),
    .command (.addFormatToken 5 7 1 0 4 1)]

def shortPayloadFmt : G1Fmt where
  key := 7
  size := 10
  pkt := List.replicate fmtPktSize 0
  pktLen := 10
  offset := 0
  len := 10
  token := [⟨1, 4, 1⟩]

/-- A packet of this device with a payload of `n` bytes, for this format. -/
def shortPayloadPkt (n : ℕ) : List UInt8 :=
  [0, 0, 1, 1, 1, 1, 1, 1, 0, 0, 0, 7, 0, UInt8.ofNat n] ++ List.replicate n 9

theorem tokens_within_payload_of_five :
    ∃ s, run (EdgeState.step Env.plain) (EdgeState.init [] fun _ => 0) shortPayloadRun = some s ∧
      (s.edgeRcvPkt Env.plain 0 0 (Buf.ofBytes (shortPayloadPkt 5)) 19).Each (PayloadWithin 5) := by
  have heval : (run (EdgeState.step Env.plain) (EdgeState.init [] fun _ => 0)
      shortPayloadRun).map (fun s => decide
        (s.Delivered 0 (Buf.ofBytes (shortPayloadPkt 5)) 19 shortPayloadFmt)) = some true := by
    decide +kernel
  obtain ⟨s, hrun, hdelivered⟩ := Option.map_eq_some_iff.mp heval
  obtain ⟨_, hwithin, _⟩ := tokens_within_payload_iff Env.plain [] (fun _ => 0) hrun
    (of_decide_eq_true hdelivered) 0
  have hsize : payloadSize (Buf.ofBytes (shortPayloadPkt 5)) 19 = 5 := by decide +kernel
  rw [hsize] at hwithin
  refine ⟨s, hrun, hwithin ?_⟩
  intro last hlast
  cases hlast
  decide

/-- With one byte of payload the value is built from what lies behind the packet. -/
theorem tokens_leave_payload_of_one :
    ¬ ∀ (env : Env) (mac : List UInt8) (clock : ℕ → ℕ) (es : List Event) (s : EdgeState)
      (type : UInt32) (module : UInt64) (pkt : List UInt8) (fmt : G1Fmt),
      run (EdgeState.step env) (EdgeState.init mac clock) es = some s →
      s.Delivered type (Buf.ofBytes pkt) (UInt64.ofNat pkt.length) fmt →
        (s.edgeRcvPkt env type module (Buf.ofBytes pkt) (UInt64.ofNat pkt.length)).Each
          (PayloadWithin (payloadSize (Buf.ofBytes pkt) (UInt64.ofNat pkt.length))) := by
  intro h
  have heval : (run (EdgeState.step Env.plain) (EdgeState.init [] fun _ => 0)
      shortPayloadRun).map (fun s =>
        (decide (s.Delivered 0 (Buf.ofBytes (shortPayloadPkt 1)) 15 shortPayloadFmt),
          decide ((⟨.payload, 4, 1, 1⟩ : Access Buffer) ∈
            (s.edgeRcvPkt Env.plain 0 0 (Buf.ofBytes (shortPayloadPkt 1)) 15).acc))) =
        some (true, true) := by
    decide +kernel
  obtain ⟨s, hrun, heq⟩ := Option.map_eq_some_iff.mp heval
  obtain ⟨hdelivered, haccess⟩ := Prod.mk.inj heq
  have hwithin := h Env.plain [] (fun _ => 0) shortPayloadRun s 0 0 (shortPayloadPkt 1) _ hrun
    (of_decide_eq_true hdelivered) _ (of_decide_eq_true haccess) rfl
  have hsize : payloadSize (Buf.ofBytes (shortPayloadPkt 1)) 15 = 1 := by decide +kernel
  change 5 ≤ payloadSize (Buf.ofBytes (shortPayloadPkt 1)) 15 at hwithin
  omega

end EceLib
