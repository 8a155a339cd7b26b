import EceLib.Edge.Storing
import EceLib.Edge.System
import EceLib.Support.Related

/-!
# Devices do not influence each other

A received packet is processed with the configuration and with the device it is
from, and it changes that device only.  So what becomes of a device over a
sequence of packets is what becomes of it over the packets that are from it.
-/

namespace EceLib

open Support

namespace EdgeState

/-! ## States that are alike for one device -/

/-- The two states have the same configuration and the same device `oid`. -/
structure Alike (oid : Oid) (s t : EdgeState) : Prop where
  attrs : t.gAttrMap = s.gAttrMap
  pdts : t.gPdtMap = s.gPdtMap
  ctl : t.ctl = s.ctl
  dev : t.gDevMap.get oid = s.gDevMap.get oid

/-- They are alike, and the clock will return the same in both. -/
structure AlikeNow (oid : Oid) (s t : EdgeState) : Prop extends Alike oid s t where
  clock : t.clock = s.clock

variable {oid : Oid} {s t : EdgeState}

theorem AlikeNow.now (h : AlikeNow oid s t) : t.now = s.now := by
  rw [EdgeState.now, EdgeState.now, h.clock]

theorem AlikeNow.tickClock (h : AlikeNow oid s t) : AlikeNow oid s.tickClock t.tickClock where
  toAlike := ⟨h.attrs, h.pdts, h.ctl, h.dev⟩
  clock := by
    unfold EdgeState.tickClock
    rw [h.clock]

theorem AlikeNow.out (h : AlikeNow oid s t) (out out' : List Output) :
    AlikeNow oid { s with out := out } { t with out := out' } :=
  ⟨⟨h.attrs, h.pdts, h.ctl, h.dev⟩, h.clock⟩

theorem AlikeNow.pktFile (h : AlikeNow oid s t) (file file' : List UInt8) :
    AlikeNow oid { s with pktFile := file } { t with pktFile := file' } :=
  ⟨⟨h.attrs, h.pdts, h.ctl, h.dev⟩, h.clock⟩

theorem AlikeNow.gDevAgeHead (h : AlikeNow oid s t) (oids oids' : List Oid) :
    AlikeNow oid { s with gDevAgeHead := oids } { t with gDevAgeHead := oids' } :=
  ⟨⟨h.attrs, h.pdts, h.ctl, h.dev⟩, h.clock⟩

theorem AlikeNow.putDev (h : AlikeNow oid s t) (dev : Dev) :
    AlikeNow oid (s.putDev dev) (t.putDev dev) where
  toAlike :=
    { attrs := h.attrs
      pdts := h.pdts
      ctl := h.ctl
      dev := by
        unfold EdgeState.putDev
        simp only [Registry.get_put, h.dev] }
  clock := h.clock

theorem AlikeNow.reportDevAttr (h : AlikeNow oid s t) (dev : Dev) (attr : AttrVal) :
    AlikeNow oid (s.reportDevAttr dev attr) (t.reportDevAttr dev attr) := h.out _ _

theorem AlikeNow.setAttrVal (h : AlikeNow oid s t) (attr : AttrVal) (data : List UInt8) :
    t.setAttrVal attr data = s.setAttrVal attr data := by
  unfold EdgeState.setAttrVal getAttr
  rw [h.attrs]

theorem AlikeNow.deref (h : AlikeNow oid s t) (ptr : PdtPtr) : t.deref ptr = s.deref ptr := by
  rw [EdgeState.deref, EdgeState.deref, h.pdts]

theorem AlikeNow.getG1Fmt (h : AlikeNow oid s t) (topic key : UInt32) :
    t.getG1Fmt topic key = s.getG1Fmt topic key := by
  rw [EdgeState.getG1Fmt, EdgeState.getG1Fmt, getPdt, getPdt, h.pdts]

/-! ## Processing in two states that are alike -/

/-- The results of an attribute update in two states. -/
def SameUpdate (oid : Oid) (r r' : Option AttrVal × EdgeState × Dev) : Prop :=
  r'.1 = r.1 ∧ AlikeNow oid r.2.1 r'.2.1 ∧ r'.2.2 = r.2.2

/-- The comparison and the change that both halves of an update end in. -/
theorem AlikeNow.compare_set (h : AlikeNow oid s t) (attr : AttrVal) (data : List UInt8)
    {f f' : AttrVal → Option AttrVal × EdgeState × Dev} {a a' : Option AttrVal × EdgeState × Dev}
    (hset : ∀ v, SameUpdate oid (f v) (f' v)) (hsame : SameUpdate oid a a') :
    Traced.Related (SameUpdate oid)
      (do
        Traced.touch ⟨Buffer.attrVal, 0, data.length, maxDeviceAttributeLen⟩
        if attrMemSize < data.length then Traced.stop
        else if attr.mem.front data.length ≠ data then
          let attr ← Traced.lift (s.setAttrVal attr data)
          pure (f attr)
        else pure a)
      (do
        Traced.touch ⟨Buffer.attrVal, 0, data.length, maxDeviceAttributeLen⟩
        if attrMemSize < data.length then Traced.stop
        else if attr.mem.front data.length ≠ data then
          let attr ← Traced.lift (t.setAttrVal attr data)
          pure (f' attr)
        else pure a') := by
  rw [h.setAttrVal]
  apply Traced.Related.same_bind
  intro _
  by_cases hlen : attrMemSize < data.length
  · rw [if_pos hlen, if_pos hlen]
    exact Traced.related_stop
  · rw [if_neg hlen, if_neg hlen]
    by_cases hval : attr.mem.front data.length ≠ data
    · rw [if_pos hval, if_pos hval]
      apply Traced.Related.same_bind
      intro v
      exact Traced.related_pure (hset v)
    · rw [if_neg hval, if_neg hval]
      exact Traced.related_pure hsame

theorem AlikeNow.addDevAttr (h : AlikeNow oid s t) (dev : Dev) (topic : UInt32)
    (data : List UInt8) :
    Traced.Related (SameUpdate oid) (s.addDevAttr dev topic data)
      (t.addDevAttr dev topic data) := by
  unfold EdgeState.addDevAttr
  by_cases hargs : topic = 0 ∨ data.length = 0
  · rw [if_pos hargs, if_pos hargs]
    exact Traced.related_pure ⟨rfl, h, rfl⟩
  · rw [if_neg hargs, if_neg hargs, h.now]
    exact h.compare_set { len := data.length, mem := AttrMem.blank, topic := topic } data
      (fun _ => ⟨rfl, h.tickClock, rfl⟩) ⟨rfl, h, rfl⟩

theorem AlikeNow.uptDevAttr (h : AlikeNow oid s t) (dev : Dev) (topic : UInt32)
    (data : List UInt8) :
    Traced.Related (SameUpdate oid) (s.uptDevAttr dev topic data)
      (t.uptDevAttr dev topic data) := by
  unfold EdgeState.uptDevAttr
  by_cases hargs : topic = 0 ∨ data.length = 0
  · rw [if_pos hargs, if_pos hargs]
    exact Traced.related_pure ⟨rfl, h, rfl⟩
  · rw [if_neg hargs, if_neg hargs, h.now]
    cases hget : dev.attrMap.get topic with
    | none =>
        simp only [hget]
        exact h.tickClock.addDevAttr _ topic data
    | some old =>
        simp only [hget]
        exact h.tickClock.compare_set { old with len := data.length } data
          (fun _ => ⟨rfl, h.tickClock, rfl⟩) ⟨rfl, h.tickClock, rfl⟩

theorem AlikeNow.tokenLoop (h : AlikeNow oid s t) (payload : Buf) (payloadLen : ℕ)
    (tokens : List G1Token) (dev : Dev) :
    Traced.Related (fun r r' => AlikeNow oid r.1 r'.1 ∧ r'.2 = r.2)
      (EceLib.tokenLoop payload payloadLen tokens s dev)
      (EceLib.tokenLoop payload payloadLen tokens t dev) := by
  induction tokens generalizing s t dev with
  | nil => exact Traced.related_pure ⟨h, rfl⟩
  | cons token next ih =>
      simp only [EceLib.tokenLoop]
      apply Traced.Related.touch_bind
      apply (h.uptDevAttr dev token.topic (payload.bytes token.offset token.len)).bind
      rintro ⟨attr, s₁, dev₁⟩ ⟨attr', t₁, dev₁'⟩ ⟨hattr, h₁, hdev⟩
      dsimp only at hattr h₁ hdev
      subst hattr hdev
      apply ih
      cases attr' with
      | none => exact h₁
      | some attr =>
          simp only [h₁.ctl]
          by_cases hmode : s₁.ctl.upMode = .attr
          · rw [if_pos hmode, if_pos hmode]
            exact h₁.reportDevAttr dev₁' attr
          · rw [if_neg hmode, if_neg hmode]
            exact h₁

theorem AlikeNow.sendPktToDevice (h : AlikeNow oid s t) (dev : Dev) (key : UInt32)
    (data : List UInt8) :
    Traced.Related (AlikeNow oid) (s.sendPktToDevice dev key data)
      (t.sendPktToDevice dev key data) := by
  unfold EdgeState.sendPktToDevice
  rw [h.deref]
  cases s.deref dev.pdt with
  | none => exact Traced.related_stop
  | some pdt =>
      simp only [h.getG1Fmt]
      cases s.getG1Fmt pdt.topic key with
      | none => exact Traced.related_pure h
      | some fmt =>
          apply Traced.Related.touch_bind
          apply Traced.Related.touch_bind
          apply Traced.Related.touch_bind
          apply Traced.Related.touch_bind
          apply Traced.Related.touch_bind
          exact Traced.related_pure (h.out _ _)

theorem AlikeNow.checkRuleEngine (h : AlikeNow oid s t) (env : Env) (dev : Dev) :
    Traced.Related (AlikeNow oid) (s.checkRuleEngine env dev) (t.checkRuleEngine env dev) := by
  unfold EdgeState.checkRuleEngine
  by_cases hts : dev.updateTs ≤ dev.reportTs
  · rw [if_pos hts, if_pos hts]
    exact Traced.related_pure h
  · rw [if_neg hts, if_neg hts]
    apply Traced.Related.touch_bind
    apply Traced.Related.touch_bind
    cases env.ruleEval _ with
    | none => exact Traced.related_pure h
    | some passed =>
        have hrest : ∀ {s₁ t₁ : EdgeState} (a : Access Buffer), AlikeNow oid s₁ t₁ →
            Traced.Related (AlikeNow oid) (do Traced.touch a; pure s₁)
              (do Traced.touch a; pure t₁) :=
          fun _ h₁ => Traced.Related.touch_bind (Traced.related_pure h₁)
        cases passed with
        | false => exact hrest _ h
        | true =>
            apply (h.sendPktToDevice dev _ _).bind
            intro s₁ t₁ h₁
            exact hrest _ h₁

/-- The results of processing a message, or a packet, in two states. -/
def SameResult (oid : Oid) (r r' : ℕ × EdgeState) : Prop := r'.1 = r.1 ∧ AlikeNow oid r.2 r'.2

theorem AlikeNow.parseMsg (h : AlikeNow oid s t) (env : Env) (dev : Dev) (pkt : Buf)
    (size : UInt64) :
    Traced.Related (SameResult oid) (s.parseMsg env dev pkt size)
      (t.parseMsg env dev pkt size) := by
  unfold EdgeState.parseMsg
  by_cases hsize : g1MsgSize > size.toNat
  · rw [if_pos hsize, if_pos hsize]
    exact Traced.related_pure ⟨rfl, h⟩
  · rw [if_neg hsize, if_neg hsize]
    apply Traced.Related.touch_bind
    apply Traced.Related.touch_bind
    apply Traced.Related.touch_bind
    rw [h.deref]
    cases s.deref dev.pdt with
    | none => exact Traced.related_stop
    | some pdt =>
        simp only [h.getG1Fmt]
        cases s.getG1Fmt pdt.topic (msgKey pkt) with
        | none => exact Traced.related_pure ⟨rfl, h⟩
        | some fmt =>
            apply (h.tokenLoop _ _ fmt.token dev).bind
            rintro ⟨s₁, dev₁⟩ ⟨t₁, dev₁'⟩ ⟨h₁, hdev⟩
            dsimp only at h₁ hdev
            subst hdev
            apply ((h₁.putDev dev₁').checkRuleEngine env dev₁').bind
            intro s₂ t₂ h₂
            exact Traced.related_pure ⟨rfl, h₂⟩

theorem AlikeNow.freshDev (h : AlikeNow oid s t) (dev : Dev) :
    AlikeNow oid (s.freshDev dev).1 (t.freshDev dev).1 ∧
      (t.freshDev dev).2 = (s.freshDev dev).2 := by
  unfold EdgeState.freshDev
  simp only [h.now, and_true]
  exact (h.tickClock.gDevAgeHead _ _).putDev _

/-- A packet of the device `oid`. -/
theorem AlikeNow.parseG1Pkt {type : UInt32} {pkt : Buf} {size : UInt64}
    (h : AlikeNow (pktOid type pkt size) s t) (env : Env) :
    Traced.Related (SameResult (pktOid type pkt size)) (s.parseG1Pkt env type pkt size)
      (t.parseG1Pkt env type pkt size) := by
  unfold Traced.Related
  rw [val_parseG1Pkt, val_parseG1Pkt, h.dev]
  by_cases hl : (pktAddress pkt size).1 = 0
  · rw [if_pos hl, if_pos hl]
    exact Option.Rel.some ⟨rfl, h⟩
  · rw [if_neg hl, if_neg hl]
    by_cases hgap : (pktAddress pkt size).2.Gap
    · rw [if_pos hgap, if_pos hgap]
      exact Option.Rel.none
    · rw [if_neg hgap, if_neg hgap]
      cases s.gDevMap.get (pktOid type pkt size) with
      | none => exact Option.Rel.some ⟨rfl, h⟩
      | some dev =>
          obtain ⟨hstate, hdev⟩ := h.freshDev dev
          simp only [hdev]
          exact hstate.parseMsg env _ (pktMsg pkt size) (pktMsgSize pkt size)

theorem AlikeNow.received (h : AlikeNow oid s t) (env : Env) (type : UInt32) (module : UInt64)
    (pkt : Buf) (size : UInt64) :
    AlikeNow oid (s.received env type module pkt size) (t.received env type module pkt size) := by
  unfold EdgeState.received
  apply AlikeNow.tickClock
  rw [h.ctl]
  by_cases hrecord : s.ctl.pktRecord = edgeFuncOn
  · rw [if_pos hrecord, if_pos hrecord]
    exact h.pktFile _ _
  · rw [if_neg hrecord, if_neg hrecord]
    exact h

theorem SameResult.answer {r r' : ℕ × EdgeState} (h : SameResult oid r r') (env : Env)
    (module : UInt64) (pkt : Buf) (size : UInt64) :
    SameResult oid (answer env module pkt size r) (answer env module pkt size r') := by
  obtain ⟨ret, s₁⟩ := r
  obtain ⟨ret', t₁⟩ := r'
  obtain ⟨hret, h₁⟩ := h
  dsimp only at hret h₁
  subst hret
  unfold EdgeState.answer
  simp only [h₁.ctl]
  by_cases hzero : ret' ≠ 0
  · rw [if_pos hzero, if_pos hzero]
    exact ⟨rfl, h₁.out _ _⟩
  · rw [if_neg hzero, if_neg hzero]
    by_cases hmode : s₁.ctl.upMode = .pkt
    · rw [if_pos hmode, if_pos hmode]
      exact ⟨rfl, h₁⟩
    · rw [if_neg hmode, if_neg hmode]
      exact ⟨rfl, h₁⟩

theorem AlikeNow.edgeRcvPkt {type : UInt32} {pkt : Buf} {size : UInt64}
    (h : AlikeNow (pktOid type pkt size) s t) (env : Env) (module : UInt64) :
    Traced.Related (SameResult (pktOid type pkt size)) (s.edgeRcvPkt env type module pkt size)
      (t.edgeRcvPkt env type module pkt size) := by
  by_cases hon : s.ctl.function = edgeFuncOn
  · by_cases hsize : size = 0
    · unfold EdgeState.edgeRcvPkt
      rw [h.ctl, if_neg (not_not.mpr hon), if_pos hsize, if_neg (not_not.mpr hon), if_pos hsize]
      exact Traced.related_pure ⟨rfl, h⟩
    · have hon' : t.ctl.function = edgeFuncOn := by rw [h.ctl, hon]
      unfold Traced.Related
      rw [val_edgeRcvPkt env type module pkt hon hsize,
        val_edgeRcvPkt env type module pkt hon' hsize]
      apply ((h.received env type module pkt size).parseG1Pkt env).map_val
      intro r r' hr
      exact hr.answer env module pkt size
  · unfold EdgeState.edgeRcvPkt
    simp only [h.ctl, hon, ne_eq, not_false_eq_true, if_true]
    exact Traced.related_pure ⟨rfl, h⟩

/-! ## A reception changes one device -/

/-- A reception leaves the configuration as it is, and the devices too, or it
puts one device back that was changed. -/
theorem edgeRcvPkt_frame {env : Env} {s s' : EdgeState} {type : UInt32} {module : UInt64}
    {pkt : Buf} {size : UInt64} {ret : ℕ}
    (h : (s.edgeRcvPkt env type module pkt size).val = some (ret, s')) :
    s'.gAttrMap = s.gAttrMap ∧ s'.gPdtMap = s.gPdtMap ∧ s'.ctl = s.ctl ∧
      (s'.gDevMap = s.gDevMap ∨
        ∃ dev dev₁, (pktAddress pkt size).1 ≠ 0 ∧
          s.gDevMap.get (pktOid type pkt size) = some dev ∧
          dev₁.oid = pktOid type pkt size ∧ dev₁.pdt = dev.pdt ∧
          s'.gDevMap = s.gDevMap.put dev₁) := by
  rcases edgeRcvPkt_eq_some h with rfl | ⟨_, _, file, r, hparse, hanswer⟩
  · exact ⟨rfl, rfl, rfl, Or.inl rfl⟩
  · obtain ⟨msgs, _, hout⟩ := answer_snd env module pkt size r
    rw [hanswer] at hout
    dsimp only at hout
    subst hout
    rcases parseG1Pkt_cases hparse with hs | ⟨dev, s₁, dev₁, haccepted, hdev, hsteps, hs⟩
    · rw [hs]
      exact ⟨rfl, rfl, rfl, Or.inl rfl⟩
    · obtain ⟨⟨j, out, rfl⟩, hoid, hptr, _⟩ := hsteps.frame
      have hkey : dev.oid = pktOid type pkt size := Registry.key_of_get hdev
      rw [hs]
      refine ⟨rfl, rfl, rfl, Or.inr ⟨dev, dev₁, haccepted, hdev, hoid.trans hkey, hptr, ?_⟩⟩
      -- the device is put back by `fresh_dev` and once more at the end
      change (s.gDevMap.put _).put dev₁ = s.gDevMap.put dev₁
      exact Registry.put_put s.gDevMap hoid.symm

end EdgeState

/-! ## Sequences of packets -/

/-- A packet that is received, with what `time(NULL)` returns from then on. -/
structure Reception where
  type : UInt32
  module : UInt64
  pkt : Buf
  size : UInt64
  clock : ℕ → ℕ

namespace Reception

/-- The address of the packet is accepted, and with the access type it is that
of the device `oid`. -/
def Resolves (oid : Oid) (p : Reception) : Prop :=
  (pktAddress p.pkt p.size).1 ≠ 0 ∧ pktOid p.type p.pkt p.size = oid

instance (oid : Oid) (p : Reception) : Decidable (p.Resolves oid) :=
  inferInstanceAs (Decidable (_ ∧ _))

/-- `edge_rcv_pkt` at the time of the reception. -/
def receive (env : Env) (s : EdgeState) (p : Reception) : Option EdgeState :=
  (({ s with clock := p.clock }).edgeRcvPkt env p.type p.module p.pkt p.size).val.map Prod.snd

end Reception

namespace EdgeState

/-- The product of every device is there, and every token takes at most 32 bytes
and has a numeric attribute. -/
structure Configured (s : EdgeState) : Prop where
  live : ∀ oid dev, s.gDevMap.get oid = some dev → ∃ pdt, s.deref dev.pdt = some pdt
  short : ∀ topic key fmt, s.getG1Fmt topic key = some fmt →
    ∀ token ∈ fmt.token, token.len ≤ maxDeviceAttributeLen
  numeric : ∀ topic key fmt, s.getG1Fmt topic key = some fmt →
    ∀ token ∈ fmt.token, ∀ attr, s.gAttrMap.get token.topic = some attr → attr.type = .num

theorem configured_iff {s : EdgeState} :
    s.Configured ↔
      (∀ entry ∈ s.gDevMap.entries, (s.deref entry.2.pdt).isSome) ∧
        ∀ entry ∈ s.gPdtMap.entries, ∀ fmt ∈ entry.2.fmtMap.entries, ∀ token ∈ fmt.2.token,
          token.len ≤ maxDeviceAttributeLen ∧
            ∀ attr ∈ s.gAttrMap.get token.topic, attr.type = .num := by
  have hfmt : ∀ topic key fmt, s.getG1Fmt topic key = some fmt ↔
      ∃ pdt, s.gPdtMap.get topic = some pdt ∧ pdt.fmtMap.get key = some fmt := by
    intro topic key fmt
    unfold getG1Fmt getPdt
    cases s.gPdtMap.get topic <;> simp
  constructor
  · intro h
    refine ⟨fun entry hmem => ?_, fun entry hmem fmt hfmem token htoken => ?_⟩
    · exact Option.isSome_iff_exists.mpr (h.live entry.1 entry.2 (Registry.mem_entries_iff.mp hmem))
    · have hget := (hfmt entry.1 fmt.1 fmt.2).mpr
        ⟨_, Registry.mem_entries_iff.mp hmem, Registry.mem_entries_iff.mp hfmem⟩
      exact ⟨h.short _ _ _ hget token htoken, h.numeric _ _ _ hget token htoken⟩
  · rintro ⟨hlive, htokens⟩
    have hall : ∀ topic key fmt, s.getG1Fmt topic key = some fmt → ∀ token ∈ fmt.token,
        token.len ≤ maxDeviceAttributeLen ∧
          ∀ attr ∈ s.gAttrMap.get token.topic, attr.type = .num := by
      intro topic key fmt hget
      obtain ⟨pdt, hpdt, hkey⟩ := (hfmt topic key fmt).mp hget
      exact htokens (topic, pdt) (Registry.mem_entries_iff.mpr hpdt) (key, fmt)
        (Registry.mem_entries_iff.mpr hkey)
    refine ⟨fun oid dev hdev => ?_, fun topic key fmt hget token htoken => ?_,
      fun topic key fmt hget token htoken => ?_⟩
    · exact Option.isSome_iff_exists.mp
        (hlive (oid, dev) (Registry.mem_entries_iff.mpr hdev))
    · exact (hall topic key fmt hget token htoken).1
    · exact (hall topic key fmt hget token htoken).2

instance (s : EdgeState) : Decidable s.Configured := decidable_of_iff _ configured_iff.symm

/-- The configuration and the set of devices are the same. -/
structure SameDevices (s s' : EdgeState) : Prop where
  attrs : s'.gAttrMap = s.gAttrMap
  pdts : s'.gPdtMap = s.gPdtMap
  ptr : ∀ oid, (s'.gDevMap.get oid).map Dev.pdt = (s.gDevMap.get oid).map Dev.pdt

theorem SameDevices.refl (s : EdgeState) : SameDevices s s := ⟨rfl, rfl, fun _ => rfl⟩

theorem SameDevices.trans {s s₁ s₂ : EdgeState} (h₁ : SameDevices s s₁)
    (h₂ : SameDevices s₁ s₂) : SameDevices s s₂ where
  attrs := h₂.attrs.trans h₁.attrs
  pdts := h₂.pdts.trans h₁.pdts
  ptr := fun oid => (h₂.ptr oid).trans (h₁.ptr oid)

theorem SameDevices.configured {s s' : EdgeState} (h : SameDevices s s') (hs : s.Configured) :
    s'.Configured where
  live := fun oid dev hdev => by
    have hptr := h.ptr oid
    rw [hdev, Option.map_some] at hptr
    obtain ⟨dev₀, hdev₀, heq⟩ := Option.map_eq_some_iff.mp hptr.symm
    rw [← heq, deref, h.pdts]
    exact hs.live oid dev₀ hdev₀
  short := fun topic key fmt hfmt => by
    rw [getG1Fmt, getPdt, h.pdts] at hfmt
    exact hs.short topic key fmt hfmt
  numeric := fun topic key fmt hfmt => by
    rw [getG1Fmt, getPdt, h.pdts] at hfmt
    rw [h.attrs]
    exact hs.numeric topic key fmt hfmt

/-- Numeric values of at most 32 bytes can be stored. -/
theorem tokensStorable_of_numeric {g : Registry UInt32 EdgeAttr} (payload : Buf)
    {tokens : List G1Token} (hshort : ∀ token ∈ tokens, token.len ≤ maxDeviceAttributeLen)
    (hnum : ∀ token ∈ tokens, ∀ attr, g.get token.topic = some attr → attr.type = .num)
    (vals : UInt32 → AttrMem) : TokensStorable g payload tokens vals := by
  induction tokens generalizing vals with
  | nil => trivial
  | cons token next ih =>
      have hrest := ih (fun token' h => hshort token' (by simp [h]))
        (fun token' h => hnum token' (by simp [h]))
      unfold TokensStorable
      by_cases hargs : token.topic = 0 ∨ token.len = 0
      · simp only [if_pos hargs]
        exact hrest vals
      · simp only [if_neg hargs]
        refine ⟨⟨?_, fun _ attr hattr => ?_⟩, hrest _⟩
        · rw [Buf.length_bytes]
          exact (hshort token (by simp)).trans (by decide)
        · rw [hnum token (by simp) attr hattr]
          rfl

/-- `parse_msg` has a result when the product of the device is there and the
values can be stored. -/
theorem exists_parseMsg (env : Env) {s : EdgeState} (dev : Dev) {pdt : EdgePdt}
    (hpdt : s.deref dev.pdt = some pdt) (pkt : Buf) (size : UInt64)
    (hstorable : ∀ fmt, s.getG1Fmt pdt.topic (msgKey pkt) = some fmt →
      TokensStorable s.gAttrMap (pkt.drop g1MsgSize) fmt.token dev.vals) :
    ∃ r, (s.parseMsg env dev pkt size).val = some r := by
  rw [val_parseMsg, hpdt]
  by_cases hsize : g1MsgSize > size.toNat
  · rw [if_pos hsize]
    exact ⟨_, rfl⟩
  · rw [if_neg hsize, Option.bind_some]
    cases hfmt : s.getG1Fmt pdt.topic (msgKey pkt) with
    | none => exact ⟨_, rfl⟩
    | some fmt =>
        obtain ⟨⟨s₁, dev₁⟩, hloop⟩ := Option.isSome_iff_exists.mp
          ((isSome_tokenLoop (msgPayloadLen pkt size) s).mpr (hstorable fmt hfmt))
        obtain ⟨⟨k, out, rfl⟩, _, hptr, _⟩ := (tokenLoop_devSteps hloop).frame
        have hlive : s.deref dev₁.pdt = some pdt := by rw [hptr, hpdt]
        obtain ⟨s₂, hrule⟩ := Option.isSome_iff_exists.mp
          (isSome_checkRuleEngine env
            (s := EdgeState.putDev { s.advance k with out := out ++ s.out } dev₁) hlive)
        simp only [hloop, Option.bind_some, hrule, Option.map_some]
        exact ⟨_, rfl⟩

/-- `parse_g1_pkt` has a result in such a configuration. -/
theorem Configured.exists_parseG1Pkt {s : EdgeState} (h : s.Configured) (env : Env)
    (type : UInt32) (pkt : Buf) (size : UInt64) (hlevels : ¬ (pktAddress pkt size).2.Gap) :
    ∃ r, (s.parseG1Pkt env type pkt size).val = some r := by
  rw [val_parseG1Pkt]
  by_cases haccepted : (pktAddress pkt size).1 = 0
  · rw [if_pos haccepted]
    exact ⟨_, rfl⟩
  · rw [if_neg haccepted, if_neg hlevels]
    cases hdev : s.gDevMap.get (pktOid type pkt size) with
    | none => exact ⟨_, rfl⟩
    | some dev =>
        obtain ⟨pdt, hpdt⟩ := h.live _ dev hdev
        exact exists_parseMsg env (s.freshDev dev).2 (s := (s.freshDev dev).1) hpdt _ _
          fun fmt hfmt =>
            tokensStorable_of_numeric _ (h.short _ _ fmt hfmt) (h.numeric _ _ fmt hfmt) _

/-- A packet that is received in such a configuration has a result. -/
theorem Configured.exists_receive {s : EdgeState} (h : s.Configured) (env : Env) (p : Reception)
    (hlevels : ¬ (pktAddress p.pkt p.size).2.Gap) : ∃ s', p.receive env s = some s' := by
  have hmap : ∀ {x : Option (ℕ × EdgeState)}, (∃ r, x = some r) →
      ∃ s', x.map Prod.snd = some s' := by
    rintro _ ⟨r, rfl⟩
    exact ⟨r.2, rfl⟩
  apply hmap
  by_cases hon : s.ctl.function = edgeFuncOn
  · by_cases hsize : p.size = 0
    · simp only [edgeRcvPkt, hon, hsize, ne_eq, not_true_eq_false, if_false, if_true]
      exact ⟨_, rfl⟩
    · obtain ⟨file, hfile⟩ := received_eq env { s with clock := p.clock } p.type p.module p.pkt
        p.size
      have hreceived : Configured { ({ s with clock := p.clock } : EdgeState).advance 1 with
          pktFile := file } := ⟨h.live, h.short, h.numeric⟩
      obtain ⟨r, hr⟩ := hreceived.exists_parseG1Pkt env p.type p.pkt p.size hlevels
      rw [val_edgeRcvPkt env (s := { s with clock := p.clock }) p.type p.module p.pkt hon hsize,
        hfile, hr]
      exact ⟨_, rfl⟩
  · simp only [edgeRcvPkt, hon, ne_eq, not_false_eq_true, if_true]
    exact ⟨_, rfl⟩

/-! ## One packet -/

theorem sameDevices_receive {env : Env} {s s' : EdgeState} {p : Reception}
    (h : p.receive env s = some s') : SameDevices s s' := by
  obtain ⟨⟨ret, s₁⟩, hret, rfl⟩ := Option.map_eq_some_iff.mp h
  obtain ⟨hattrs, hpdts, _, hdevs | ⟨dev, dev₁, _, hdev, hoid, hptr, hput⟩⟩ :=
    edgeRcvPkt_frame hret
  · exact ⟨hattrs, hpdts, fun oid => by rw [hdevs]⟩
  · refine ⟨hattrs, hpdts, fun oid => ?_⟩
    have hkey : Keyed.key dev₁ = pktOid p.type p.pkt p.size := hoid
    rw [hput, Registry.get_put, hkey]
    by_cases heq : oid = pktOid p.type p.pkt p.size
    · change (if oid = _ then some dev₁ else _).map Dev.pdt = (s.gDevMap.get oid).map Dev.pdt
      rw [if_pos heq, heq, Option.map_some, hptr]
      exact (congrArg (Option.map Dev.pdt) hdev).symm
    · rw [if_neg heq]

/-- A packet that is not from a device leaves everything of it as it is. -/
theorem alike_receive_of_not_resolves {env : Env} {s s' : EdgeState} {p : Reception} {oid : Oid}
    (h : p.receive env s = some s') (hnot : ¬ p.Resolves oid) : Alike oid s' s := by
  obtain ⟨⟨ret, s₁⟩, hret, rfl⟩ := Option.map_eq_some_iff.mp h
  obtain ⟨hattrs, hpdts, hctl, hdevs | ⟨dev, dev₁, haccepted, _, hoid, _, hput⟩⟩ :=
    edgeRcvPkt_frame hret
  · exact ⟨hattrs.symm, hpdts.symm, hctl.symm, by rw [hdevs]⟩
  · refine ⟨hattrs.symm, hpdts.symm, hctl.symm, ?_⟩
    have hne : oid ≠ Keyed.key dev₁ := fun heq => hnot ⟨haccepted, (heq.trans hoid).symm⟩
    rw [hput]
    exact (Registry.get_put_of_ne _ _ hne).symm

theorem Alike.trans {oid : Oid} {s t u : EdgeState} (h₁ : Alike oid s t) (h₂ : Alike oid t u) :
    Alike oid s u where
  attrs := h₂.attrs.trans h₁.attrs
  pdts := h₂.pdts.trans h₁.pdts
  ctl := h₂.ctl.trans h₁.ctl
  dev := h₂.dev.trans h₁.dev

/-- A packet of a device does to it the same in two states that are alike. -/
theorem Alike.receive {env : Env} {s t s' : EdgeState} {p : Reception} {oid : Oid}
    (h : Alike oid s t) (hp : p.Resolves oid) (hs : p.receive env s = some s') :
    ∃ t', p.receive env t = some t' ∧ Alike oid s' t' := by
  obtain ⟨⟨ret, s₁⟩, hret, rfl⟩ := Option.map_eq_some_iff.mp hs
  obtain ⟨_, rfl⟩ := hp
  have hnow : AlikeNow (pktOid p.type p.pkt p.size) { s with clock := p.clock }
      { t with clock := p.clock } := ⟨⟨h.attrs, h.pdts, h.ctl, h.dev⟩, rfl⟩
  obtain ⟨⟨ret', t₁⟩, ht, _, h₁⟩ := (hnow.edgeRcvPkt env p.module).exists_val hret
  exact ⟨t₁, Option.map_eq_some_iff.mpr ⟨_, ht, rfl⟩, h₁.toAlike⟩

end EdgeState

/-! ## All packets -/

/-- In every configuration in which the packets of a sequence can be processed,
each device ends as if only the packets from it had been received, and products,
formats, attributes and the set of devices stay as they are. -/
theorem devices_isolated (env : Env) {s : EdgeState} {ps : List Reception} (hs : s.Configured)
    (hlevels : ∀ p ∈ ps, ¬ (pktAddress p.pkt p.size).2.Gap) :
    ∃ s', run (Reception.receive env) s ps = some s' ∧ s.SameDevices s' ∧
      ∀ oid, ∃ t, run (Reception.receive env) s (ps.filter fun p => p.Resolves oid) = some t ∧
        t.gDevMap.get oid = s'.gDevMap.get oid := by
  have hstep : ∀ s₁ (p : Reception), s₁.Configured ∧ s.SameDevices s₁ →
      ¬ (pktAddress p.pkt p.size).2.Gap →
        ∃ s₂, Reception.receive env s₁ p = some s₂ ∧ s₂.Configured ∧ s.SameDevices s₂ := by
    rintro s₁ p ⟨hs₁, hsame⟩ hp
    obtain ⟨s₂, hs₂⟩ := hs₁.exists_receive env p hp
    have hsame₂ := hsame.trans (EdgeState.sameDevices_receive hs₂)
    exact ⟨s₂, hs₂, hsame₂.configured hs, hsame₂⟩
  obtain ⟨s', hrun, _, hsame⟩ := exists_run hstep ⟨hs, .refl s⟩ hlevels
  refine ⟨s', hrun, hsame, fun oid => ?_⟩
  have hkeep : ∀ s t (p : Reception) s', EdgeState.Alike oid s t → decide (p.Resolves oid) = true →
      p.receive env s = some s' → ∃ t', p.receive env t = some t' ∧ EdgeState.Alike oid s' t' :=
    fun _ _ _ _ h hp hs₁ => h.receive (of_decide_eq_true hp) hs₁
  have hskip : ∀ s t (p : Reception) s', EdgeState.Alike oid s t →
      decide (p.Resolves oid) = false → p.receive env s = some s' → EdgeState.Alike oid s' t :=
    fun _ _ _ _ h hp hs₁ =>
      (EdgeState.alike_receive_of_not_resolves hs₁ (of_decide_eq_false hp)).trans h
  have halike : EdgeState.Alike oid s s := ⟨rfl, rfl, rfl, rfl⟩
  obtain ⟨t, hfilter, ht⟩ := run_filter_related _ hkeep hskip halike hrun
  exact ⟨t, hfilter, ht.dev⟩

/-- Two devices of a product with one format. -/
def twoDevicesRun : List Event :=
  [.command (.addProduct 5 1),
    .command (.addDevice (Buf.ofBytes (List.replicate mgtAddrSize 1)) 6 0 0 5),
    .command (.addDevice (Buf.ofBytes (List.replicate mgtAddrSize 2)) 6 0 0 5),
    .command (.addPacketFormat (Buf.ofBytes (List.replicate mgtPktSize 0)) 10 5 7 10 0 10),
    .command (.addFormatToken 5 7 1 0 0 1)]

/-- A value from the device whose address consists of `b`, at the second `sec`. -/
def valueReception (b value : UInt8) (sec : ℕ) : Reception where
  type := 0
  module := 0
  pkt := Buf.ofBytes ([0, 0] ++ List.replicate 6 b ++ [0, 0, 0, 7, 0, 1, value])
  size := 15
  clock := fun _ => sec

theorem devices_isolated_twoDevices :
    ∃ s s', run (EdgeState.step Env.plain) (EdgeState.init [] fun _ => 0) twoDevicesRun = some s ∧
      run (Reception.receive Env.plain) s
        [valueReception 1 9 20, valueReception 2 8 21, valueReception 1 7 22] = some s' ∧
      s.SameDevices s' ∧
      ∀ oid, ∃ t, run (Reception.receive Env.plain) s
          ([valueReception 1 9 20, valueReception 2 8 21, valueReception 1 7 22].filter
            fun p => p.Resolves oid) = some t ∧
        t.gDevMap.get oid = s'.gDevMap.get oid := by
  have heval : (run (EdgeState.step Env.plain) (EdgeState.init [] fun _ => 0)
      twoDevicesRun).map (fun s => decide s.Configured) = some true := by
    decide +kernel
  obtain ⟨s, hrun, hconfigured⟩ := Option.map_eq_some_iff.mp heval
  have hlevels : ∀ p ∈ [valueReception 1 9 20, valueReception 2 8 21, valueReception 1 7 22],
      ¬ (pktAddress p.pkt p.size).2.Gap := by
    decide +kernel
  obtain ⟨s', hrun', hsame⟩ := devices_isolated Env.plain (of_decide_eq_true hconfigured) hlevels
  exact ⟨s, s', hrun, hrun', hsame⟩

end EceLib
