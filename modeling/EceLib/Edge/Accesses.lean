import EceLib.Edge.System

/-!
# The accesses of a reception

Which buffers each function uses, and what a property of all accesses of a
reception comes down to: the header of the packet, the address, the header of
the message, the token loop and the rule engine, each as far as the reception
gets.
-/

namespace EceLib

open Support

/-- All accesses go to buffers of the list. -/
def Touches {α : Type} (bufs : List Buffer) (x : Traced Buffer α) : Prop :=
  x.Each fun a => a.buf ∈ bufs

theorem Touches.each {α : Type} {bufs : List Buffer} {x : Traced Buffer α} (h : Touches bufs x)
    {P : Access Buffer → Prop} (hP : ∀ a, a.buf ∈ bufs → P a) : x.Each P :=
  fun a ha => hP a (h a ha)

/-- The property says nothing about accesses to other buffers than these. -/
def OnlyOf (own : List Buffer) (P : Access Buffer → Prop) : Prop := ∀ a, a.buf ∉ own → P a

theorem OnlyOf.of_mem {own bufs : List Buffer} {P : Access Buffer → Prop} (h : OnlyOf own P)
    (hdisj : ∀ buf ∈ bufs, buf ∉ own) (a : Access Buffer) (ha : a.buf ∈ bufs) : P a :=
  h a (hdisj a.buf ha)

theorem OnlyOf.each {α : Type} {own bufs : List Buffer} {P : Access Buffer → Prop}
    {x : Traced Buffer α} (h : OnlyOf own P) (htouches : Touches bufs x)
    (hdisj : ∀ buf ∈ bufs, buf ∉ own) : x.Each P :=
  htouches.each (h.of_mem hdisj)

/-! ## Buffers -/

theorem touches_uptDevAttr (s : EdgeState) (dev : Dev) (topic : UInt32) (data : List UInt8) :
    Touches [.attrVal] (s.uptDevAttr dev topic data) := by
  by_cases hargs : topic = 0 ∨ data.length = 0
  · rw [EdgeState.uptDevAttr, if_pos hargs]
    exact Traced.each_pure _
  · obtain ⟨htopic, hdata⟩ := not_or.mp hargs
    exact (EdgeState.each_uptDevAttr_iff s dev htopic hdata).mpr (by simp)

theorem touches_tokenLoop (payload : Buf) (payloadLen : ℕ) (tokens : List G1Token)
    (s : EdgeState) (dev : Dev) :
    Touches [.payload, .attrVal] (tokenLoop payload payloadLen tokens s dev) := by
  induction tokens generalizing s dev with
  | nil => exact Traced.each_pure _
  | cons token next ih =>
      refine Traced.each_touch_bind.mpr ⟨by simp, ?_⟩
      refine Traced.each_bind.mpr ⟨?_, fun r _ => ih _ _⟩
      exact (touches_uptDevAttr _ _ _ _).each fun a ha => List.mem_cons_of_mem _ ha

theorem touches_sendPktToDevice (s : EdgeState) (dev : Dev) (key : UInt32) (data : List UInt8) :
    Touches [.fmtPkt, .sndPkt, .sndData] (s.sendPktToDevice dev key data) := by
  unfold Touches EdgeState.sendPktToDevice
  cases s.deref dev.pdt with
  | none => simp
  | some pdt =>
      cases hfmt : s.getG1Fmt pdt.topic key with
      | none => simp [hfmt]
      | some fmt => simp [hfmt, Traced.each_touch_bind]

theorem touches_checkRuleEngine (env : Env) (s : EdgeState) (dev : Dev) :
    Touches [.ruleBuf, .luaBuf, .fmtPkt, .sndPkt, .sndData] (s.checkRuleEngine env dev) := by
  unfold Touches EdgeState.checkRuleEngine
  have hsend : ∀ data, (s.sendPktToDevice dev 0x10000002 data).Each fun a =>
      a.buf ∈ [Buffer.ruleBuf, .luaBuf, .fmtPkt, .sndPkt, .sndData] := fun data =>
    (touches_sendPktToDevice s dev _ data).each fun a ha => by
      exact List.mem_cons_of_mem _ (List.mem_cons_of_mem _ ha)
  by_cases hts : dev.updateTs ≤ dev.reportTs
  · simp [hts]
  · simp only [hts, if_false]
    refine Traced.each_touch_bind.mpr ⟨by simp, Traced.each_touch_bind.mpr ⟨by simp, ?_⟩⟩
    split
    · simp
    · split
      · exact Traced.each_bind.mpr ⟨hsend _, fun s₁ _ => by simp [Traced.each_touch_bind]⟩
      · exact Traced.each_bind.mpr ⟨Traced.each_pure _, fun s₁ _ => by
          simp [Traced.each_touch_bind]⟩

/-- Each level that is there is printed. -/
theorem each_logLevels {P : Access Buffer → Prop} {pkt : Buf} {info : PktInfo}
    (h1 : (EdgeState.logAddr pkt info.h1 info.h1Len).Each P)
    (h2 : info.h2Len ≠ 0 → (EdgeState.logAddr pkt info.h2 info.h2Len).Each P)
    (h3 : info.h3Len ≠ 0 → (EdgeState.logAddr pkt info.h3 info.h3Len).Each P) :
    (EdgeState.logLevels pkt info).Each P := by
  unfold EdgeState.logLevels
  by_cases hb : info.h2Len = 0
  · by_cases hc : info.h3Len = 0
    · simp [Traced.each_bind, hb, hc, h1]
    · simp [Traced.each_bind, hb, hc, h1, h3 hc]
  · by_cases hc : info.h3Len = 0
    · simp [Traced.each_bind, hb, hc, h1, h2 hb]
    · simp [Traced.each_bind, hb, hc, h1, h2 hb, h3 hc]

theorem touches_logLevels (pkt : Buf) (info : PktInfo) :
    Touches [.pkt, .log] (EdgeState.logLevels pkt info) := by
  have hlog : ∀ h len, Touches [.pkt, .log] (EdgeState.logAddr pkt h len) := fun h len => by
    cases h with
    | none => simp [Touches, EdgeState.logAddr]
    | some h => simp [Touches, EdgeState.logAddr, Traced.each_touch_bind]
  exact each_logLevels (hlog _ _) (fun _ => hlog _ _) fun _ => hlog _ _

theorem touches_getDevOid (type : UInt32) (addr : Buf) (len : ℕ) :
    Touches [.addr, .oidTmp] (getDevOid type addr len) := by
  simp [Touches, getDevOid, Traced.each_touch_bind]

theorem touches_getDev (s : EdgeState) (type : UInt32) (addr : Buf) (addrLen : ℕ) :
    Touches [.addr, .oidTmp] (s.getDev type addr addrLen) :=
  Traced.each_bind.mpr ⟨touches_getDevOid _ _ _, fun _ _ => Traced.each_pure _⟩

/-! ## The steps of a reception -/

section Steps

variable {P : Access Buffer → Prop}

theorem each_parseMsg_iff (env : Env) (s : EdgeState) (dev : Dev) (pkt : Buf) (size : UInt64) :
    (s.parseMsg env dev pkt size).Each P ↔
      (g1MsgSize ≤ size.toNat →
        P ⟨.pkt, 0, g1MsgSize, pkt.size⟩ ∧
        P ⟨.pkt, g1MsgSize, msgPayloadLen pkt size, pkt.size⟩ ∧
        P ⟨.log, 0, 3 * msgPayloadLen pkt size + 1, logSize⟩ ∧
        ∀ pdt, s.deref dev.pdt = some pdt → ∀ fmt, s.getG1Fmt pdt.topic (msgKey pkt) = some fmt →
          (tokenLoop (pkt.drop g1MsgSize) (msgPayloadLen pkt size) fmt.token s dev).Each P ∧
          ∀ r, (tokenLoop (pkt.drop g1MsgSize) (msgPayloadLen pkt size) fmt.token s dev).val =
              some r → ((r.1.putDev r.2).checkRuleEngine env r.2).Each P) := by
  unfold EdgeState.parseMsg
  by_cases hsize : g1MsgSize > size.toNat
  · simp [hsize, Nat.not_le.mpr hsize]
  · rw [if_neg hsize]
    simp only [Nat.not_lt.mp hsize, true_imp_iff, Traced.each_touch_bind]
    refine and_congr_right fun _ => and_congr_right fun _ => and_congr_right fun _ => ?_
    cases hpdt : s.deref dev.pdt with
    | none => simp
    | some pdt =>
        simp only [Option.some.injEq, forall_eq']
        cases hfmt : s.getG1Fmt pdt.topic (msgKey pkt) with
        | none => simp
        | some fmt =>
            simp only [Option.some.injEq, forall_eq', Traced.each_bind, Traced.each_pure,
              implies_true, and_true]

theorem each_parseG1Pkt_iff (env : Env) (s : EdgeState) (type : UInt32) (pkt : Buf)
    (size : UInt64) :
    (s.parseG1Pkt env type pkt size).Each P ↔
      P ⟨.pkt, 0, 2, pkt.size⟩ ∧
      ((pktAddress pkt size).1 ≠ 0 →
        (EdgeState.logLevels pkt (pktAddress pkt size).2).Each P ∧
        (¬ (pktAddress pkt size).2.Gap →
          (s.getDev type (pkt.drop 2) (pktAddress pkt size).2.addrLen).Each P ∧
          ∀ dev, s.gDevMap.get (pktOid type pkt size) = some dev →
            ((s.freshDev dev).1.parseMsg env (s.freshDev dev).2 (pktMsg pkt size)
              (pktMsgSize pkt size)).Each P)) := by
  unfold pktOid pktMsg pktMsgSize pktAddress
  cases hparse : parseAddressFiled .zero (pkt.mem 1) 2 (size - 2) with
  | mk l info =>
      simp only [EdgeState.parseG1Pkt, hparse, Traced.each_touch_bind]
      refine and_congr_right fun _ => ?_
      by_cases hl : l = 0
      · simp [hl]
      · obtain ⟨_, _, h1, h2, h3⟩ := parseAddressFiled_accepted hparse hl
        simp only [hl, if_false, Traced.each_bind, EdgeState.val_logLevels h1 h2 h3]
        simp only [ne_eq, hl, not_false_eq_true, true_imp_iff]
        refine and_congr_right fun _ => ?_
        by_cases hgap : info.Gap
        · simp [hgap]
        · simp only [hgap, if_false, Option.some.injEq, forall_eq', not_false_eq_true,
            true_imp_iff, EdgeState.val_getDev]
          constructor
          · intro h
            obtain ⟨hdev, hmsg⟩ := h ()
            refine ⟨hdev, fun dev hget => ?_⟩
            simpa only [hget] using hmsg
          · rintro ⟨hdev, hmsg⟩ _
            refine ⟨hdev, ?_⟩
            cases hget : s.gDevMap.get (oidOf type ((pkt.drop 2).bytes 0 info.addrLen)) with
            | none => exact Traced.each_pure _
            | some dev => exact hmsg dev hget

theorem each_edgeRcvPkt_iff (env : Env) (s : EdgeState) (type : UInt32) (module : UInt64)
    (pkt : Buf) (size : UInt64) :
    (s.edgeRcvPkt env type module pkt size).Each P ↔
      (s.ctl.function = edgeFuncOn → size ≠ 0 →
        ((s.received env type module pkt size).parseG1Pkt env type pkt size).Each P ∧
        ∀ r, ((s.received env type module pkt size).parseG1Pkt env type pkt size).val = some r →
          r.1 ≠ 0 → P ⟨.pkt, 0, size.toUInt32.toNat, pkt.size⟩ ∧
            P ⟨.edgePkt, 0, size.toUInt32.toNat, edgePktSize⟩) := by
  have hsend : ∀ (s : EdgeState) status,
      (s.mgtSendPkt env status module.toUInt32 pkt size.toUInt32).Each P ↔
        P ⟨.pkt, 0, size.toUInt32.toNat, pkt.size⟩ ∧
          P ⟨.edgePkt, 0, size.toUInt32.toNat, edgePktSize⟩ := fun s status => by
    unfold EdgeState.mgtSendPkt
    simp only [Traced.each_touch_bind, Traced.each_pure, and_true]
  unfold EdgeState.edgeRcvPkt
  by_cases hon : s.ctl.function = edgeFuncOn
  · by_cases hsize : size = 0
    · simp [hon, hsize]
    · simp only [hon, hsize, ne_eq, not_true_eq_false, not_false_eq_true, if_false,
        true_imp_iff, EdgeState.edgeDpRcv_eq]
      rw [Traced.each_bind, Traced.each_bind]
      constructor
      · rintro ⟨⟨hparse, hrest⟩, _⟩
        refine ⟨hparse, fun r hr hret => ?_⟩
        have hanswer := hrest r hr
        rw [if_pos hret, Traced.each_bind, hsend] at hanswer
        exact hanswer.1
      · rintro ⟨hparse, hrest⟩
        refine ⟨⟨hparse, fun r hr => ?_⟩, fun r _ => ?_⟩
        · by_cases hret : r.1 = 0
          · rw [if_neg (not_not.mpr hret)]
            exact Traced.each_bind.mpr ⟨Traced.each_pure _, fun _ _ => Traced.each_pure _⟩
          · rw [if_pos hret, Traced.each_bind, hsend]
            exact ⟨hrest r hr hret, fun _ _ => Traced.each_pure _⟩
        · split
          · exact Traced.each_pure _
          · exact Traced.each_pure _
  · simp [hon]

end Steps

/-! ## The accesses of an event -/

/-- The property holds of all accesses to the buffers.  The passes use none of
them. -/
def Event.EachAccess (P : Access Buffer → Prop) (env : Env) (s : EdgeState) : Event → Prop
  | .command c => (c.exec s).Each P
  | .message msg len => (s.mgtRcvMsg msg len).Each P
  | .packet type module pkt size => (s.edgeRcvPkt env type module pkt size).Each P
  | .ageing | .update | .periodic => True

instance {P : Access Buffer → Prop} [DecidablePred P] (env : Env) (s : EdgeState) :
    ∀ e : Event, Decidable (e.EachAccess P env s)
  | .command c => inferInstanceAs (Decidable (∀ a ∈ (c.exec s).acc, P a))
  | .message msg len => inferInstanceAs (Decidable (∀ a ∈ (s.mgtRcvMsg msg len).acc, P a))
  | .packet type module pkt size =>
      inferInstanceAs (Decidable (∀ a ∈ (s.edgeRcvPkt env type module pkt size).acc, P a))
  | .ageing | .update | .periodic => .isTrue trivial

theorem Event.EachAccess.mono {P Q : Access Buffer → Prop} (hPQ : ∀ a, P a → Q a) {env : Env}
    {s : EdgeState} {e : Event} (h : e.EachAccess P env s) : e.EachAccess Q env s := by
  cases e with
  | command | message | packet => exact fun a ha => hPQ a (h a ha)
  | ageing | update | periodic => trivial

/-- The buffers that messages and commands use. -/
def commandBuffers : List Buffer := [.msg, .edgeMsg, .fmtAddPkt, .fmtPkt, .addr, .oidTmp]

theorem touches_addG1Fmt (s : EdgeState) (topic key : UInt32) (size : ℕ) (pkt : Buf)
    (pktLen offset len : ℕ) :
    Touches commandBuffers (addG1Fmt s topic key size pkt pktLen offset len) := by
  unfold Touches addG1Fmt
  cases s.getPdt topic with
  | none => exact Traced.each_pure _
  | some pdt =>
      refine Traced.each_touch_bind.mpr ⟨by simp [commandBuffers], ?_⟩
      exact Traced.each_require_bind.mpr ⟨by simp [commandBuffers], fun _ => Traced.each_pure _⟩

theorem touches_addDev (s : EdgeState) (module : UInt16) (addr : Buf) (len : ℕ)
    (type topic : UInt32) : Touches [.addr, .oidTmp] (s.addDev module addr len type topic) := by
  unfold Touches EdgeState.addDev
  split
  · exact Traced.each_pure _
  · cases s.getPdt topic with
    | none => exact Traced.each_pure _
    | some pdt =>
        exact Traced.each_bind.mpr ⟨touches_getDevOid _ _ _, fun _ _ => Traced.each_pure _⟩

theorem touches_delDev (s : EdgeState) (type : UInt32) (addr : Buf) (len : ℕ) :
    Touches [.addr, .oidTmp] (s.delDev type addr len) := by
  unfold Touches EdgeState.delDev
  split
  · exact Traced.each_pure _
  · refine Traced.each_bind.mpr ⟨touches_getDev _ _ _ _, fun dev _ => ?_⟩
    cases dev with
    | none => exact Traced.each_pure _
    | some dev => exact Traced.each_lift _

theorem touches_exec (s : EdgeState) (c : Command) : Touches commandBuffers (c.exec s) := by
  have haddr : ∀ a : Access Buffer, a.buf ∈ [Buffer.addr, .oidTmp] → a.buf ∈ commandBuffers :=
    fun a ha => List.mem_append_right [Buffer.msg, .edgeMsg, .fmtAddPkt, .fmtPkt] ha
  cases c with
  | addPacketFormat pkt pktLen topic key size offset len => exact touches_addG1Fmt _ _ _ _ _ _ _ _
  | addDevice addr len linkType module topic =>
      exact Traced.each_bind.mpr ⟨(touches_addDev _ _ _ _ _ _).each haddr, fun _ _ =>
        Traced.each_pure _⟩
  | delDevice addr len linkType => exact (touches_delDev _ _ _ _).each haddr
  | _ => exact Traced.each_pure _

theorem touches_mgtRcvMsg (s : EdgeState) (msg : Buf) (len : ℕ) :
    Touches commandBuffers (s.mgtRcvMsg msg len) := by
  unfold Touches EdgeState.mgtRcvMsg
  split
  · exact Traced.each_pure _
  · refine Traced.each_touch_bind.mpr ⟨by simp [commandBuffers], ?_⟩
    refine Traced.each_touch_bind.mpr ⟨by simp [commandBuffers], ?_⟩
    split
    · exact Traced.each_pure _
    · split
      · exact Traced.each_pure _
      · split
        · exact Traced.each_pure _
        · refine Traced.each_touch_bind.mpr ⟨by simp [commandBuffers], ?_⟩
          split
          · exact Traced.each_pure _
          · exact Traced.each_bind.mpr ⟨touches_exec _ _, fun _ _ => Traced.each_pure _⟩

end EceLib
