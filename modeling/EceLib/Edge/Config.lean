import EceLib.Edge.ReportPass
import EceLib.Edge.System

/-!
# Events that leave the configuration alone

Devices come and go, packets are processed and values are reported without any
change to the attributes and to the products, except for the device lists of
these.  An invariant of the configuration has to be shown for the commands of
products, formats and tokens only.
-/

namespace EceLib

open Support

/-- The configuration of a product: all of it but its devices. -/
def EdgePdt.config (pdt : EdgePdt) : EdgePdt := { pdt with head := [] }

namespace EdgeState

/-- The two states have the same attributes and the same products, up to the
devices of these. -/
structure SameConfig (s s' : EdgeState) : Prop where
  attr : s'.gAttrMap = s.gAttrMap
  get : ∀ topic, (s'.gPdtMap.get topic).map EdgePdt.config =
    (s.gPdtMap.get topic).map EdgePdt.config
  total : ∀ f : EdgePdt → ℕ, s'.gPdtMap.total (fun pdt => f pdt.config) =
    s.gPdtMap.total (fun pdt => f pdt.config)

theorem SameConfig.of_eq {s s' : EdgeState} (hattr : s'.gAttrMap = s.gAttrMap)
    (hpdt : s'.gPdtMap = s.gPdtMap) : SameConfig s s' where
  attr := hattr
  get := fun topic => by rw [hpdt]
  total := fun f => by rw [hpdt]

theorem SameConfig.refl (s : EdgeState) : SameConfig s s := .of_eq rfl rfl

theorem SameConfig.trans {s s₁ s₂ : EdgeState} (h₁ : SameConfig s s₁)
    (h₂ : SameConfig s₁ s₂) : SameConfig s s₂ where
  attr := h₂.attr.trans h₁.attr
  get := fun topic => (h₂.get topic).trans (h₁.get topic)
  total := fun f => (h₂.total f).trans (h₁.total f)

theorem SameConfig.symm {s s' : EdgeState} (h : SameConfig s s') : SameConfig s' s where
  attr := h.attr.symm
  get := fun topic => (h.get topic).symm
  total := fun f => (h.total f).symm

/-- A product of the second state is one of the first, with other devices. -/
theorem SameConfig.exists_get {s s' : EdgeState} (h : SameConfig s s') {topic : UInt32}
    {pdt' : EdgePdt} (hget : s'.gPdtMap.get topic = some pdt') :
    ∃ pdt, s.gPdtMap.get topic = some pdt ∧ pdt.config = pdt'.config := by
  have hmap := h.get topic
  rw [hget, Option.map_some] at hmap
  exact Option.map_eq_some_iff.mp hmap.symm

/-- A product gets another list of devices. -/
theorem sameConfig_putHead {s s' : EdgeState} {topic : UInt32} {pdt : EdgePdt} {head : List Oid}
    (hget : s.gPdtMap.get topic = some pdt) (hattr : s'.gAttrMap = s.gAttrMap)
    (hpdt : s'.gPdtMap = s.gPdtMap.put { pdt with head := head }) : SameConfig s s' where
  attr := hattr
  get := fun topic' => by
    have hkey : pdt.topic = topic := Registry.key_of_get hget
    rw [hpdt, Registry.get_put]
    by_cases h : topic' = topic
    · have heq : topic' = Keyed.key { pdt with head := head } := h.trans hkey.symm
      rw [if_pos heq, h, hget]
      rfl
    · have hne : ¬ topic' = Keyed.key { pdt with head := head } := fun heq => h (heq.trans hkey)
      rw [if_neg hne]
  total := fun f => by
    have hkey : pdt.topic = topic := Registry.key_of_get hget
    have hget' : s.gPdtMap.get (Keyed.key { pdt with head := head }) = some pdt := by
      change s.gPdtMap.get pdt.topic = some pdt
      rw [hkey, hget]
    have htotal := Registry.total_put_of_some hget' fun pdt => f pdt.config
    have hconfig : ({ pdt with head := head } : EdgePdt).config = pdt.config := rfl
    rw [hconfig] at htotal
    rw [hpdt]
    omega

/-! ## Devices -/

theorem sameConfig_addDevInternal {s : EdgeState} {topic : UInt32} {pdt : EdgePdt} (oid : Oid)
    (module : ℕ) (hget : s.gPdtMap.get topic = some pdt) :
    SameConfig s (s.addDevInternal pdt oid module).2 := by
  unfold addDevInternal
  split
  · exact .refl s
  · exact sameConfig_putHead hget rfl rfl

theorem sameConfig_delDevInternal {s s' : EdgeState} {dev : Dev}
    (h : s.delDevInternal dev = some s') : SameConfig s s' := by
  unfold delDevInternal at h
  cases hpdt : s.deref dev.pdt with
  | none => simp [hpdt] at h
  | some pdt =>
      simp only [hpdt, Option.some.injEq] at h
      obtain ⟨hget, _⟩ := deref_eq_some_iff.mp hpdt
      subst h
      exact sameConfig_putHead hget rfl rfl

/-- What `add_dev` can do: nothing, or add a device to a product. -/
theorem addDev_cases {s s' : EdgeState} {module : UInt16} {addr : Buf} {addrLen : ℕ}
    {type topic : UInt32} {dev : Option Dev}
    (h : (s.addDev module addr addrLen type topic).val = some (dev, s')) :
    s' = s ∨ ∃ pdt, addrLen ≠ 0 ∧ topic ≠ 0 ∧ s.gPdtMap.get topic = some pdt ∧
      s' = (s.addDevInternal pdt (oidOf type (addr.bytes 0 addrLen)) module.toNat).2 := by
  unfold addDev getPdt at h
  by_cases hargs : addrLen = 0 ∨ topic = 0
  · rw [if_pos hargs] at h
    cases h
    exact Or.inl rfl
  · rw [if_neg hargs] at h
    obtain ⟨hlen, htopic⟩ := not_or.mp hargs
    cases hget : s.gPdtMap.get topic with
    | none =>
        simp only [hget] at h
        cases h
        exact Or.inl rfl
    | some pdt =>
        simp only [hget, getDevOid, Traced.val_bind, Traced.val_touch, Option.bind_some,
          Traced.val_pure, Option.some.injEq] at h
        exact Or.inr ⟨pdt, hlen, htopic, rfl, by rw [h]⟩

/-- What `del_dev` can do: nothing, or delete the device it finds. -/
theorem delDev_cases {s s' : EdgeState} {type : UInt32} {addr : Buf} {addrLen : ℕ}
    (h : (s.delDev type addr addrLen).val = some s') :
    s' = s ∨ ∃ dev, s.gDevMap.get (oidOf type (addr.bytes 0 addrLen)) = some dev ∧
      s.delDevInternal dev = some s' := by
  unfold delDev at h
  by_cases hlen : addrLen = 0
  · rw [if_pos hlen] at h
    cases h
    exact Or.inl rfl
  · simp only [hlen, if_false, Traced.val_bind, val_getDev, Option.bind_some] at h
    cases hdev : s.gDevMap.get (oidOf type (addr.bytes 0 addrLen)) with
    | none =>
        simp only [hdev] at h
        cases h
        exact Or.inl rfl
    | some dev =>
        simp only [hdev, Traced.val_lift] at h
        exact Or.inr ⟨dev, rfl, h⟩

/-- Adding and deleting devices. -/
theorem sameConfig_addDevice {s s' : EdgeState} {addr : Buf} {len linkType module topic : UInt32}
    (h : (Command.exec s (.addDevice addr len linkType module topic)).val = some s') :
    SameConfig s s' := by
  simp only [Command.exec, Traced.val_bind, Option.bind_eq_some_iff, Traced.val_pure] at h
  obtain ⟨⟨dev, s₁⟩, hadd, heq⟩ := h
  cases heq
  rcases addDev_cases hadd with rfl | ⟨pdt, _, _, hget, rfl⟩
  · exact .refl _
  · exact sameConfig_addDevInternal _ _ hget

theorem sameConfig_delDevice {s s' : EdgeState} {addr : Buf} {len linkType : UInt32}
    (h : (Command.exec s (.delDevice addr len linkType)).val = some s') : SameConfig s s' := by
  rcases delDev_cases h with rfl | ⟨dev, _, hdel⟩
  · exact .refl _
  · exact sameConfig_delDevInternal hdel

end EdgeState

/-- The commands about devices. -/
def Command.IsDevice : Command → Prop
  | addDevice .. | delDevice .. => True
  | _ => False

/-- The commands that change a product that is there. -/
def Command.EditsProduct : Command → Prop
  | addPacketFormat .. | delPacketFormat .. | addFormatToken .. | delFormatToken .. => True
  | _ => False

/-- They change its attributes and its formats only. -/
theorem Command.exec_edit {s s' : EdgeState} {c : Command} (hexec : (c.exec s).val = some s')
    (hc : c.EditsProduct) :
    s' = s ∨ ∃ topic pdt attrMap fmtMap g, s.gPdtMap.get topic = some pdt ∧
      s' = s.putPdt { pdt with attrMap := attrMap, fmtMap := fmtMap } g := by
  cases c with
  | addPacketFormat pkt pktLen topic key size offset len =>
      rcases addG1Fmt_cases hexec with ⟨_, rfl⟩ | ⟨pdt, hget, _, rfl⟩
      · exact Or.inl rfl
      · exact Or.inr ⟨topic, pdt, _, _, _, hget, rfl⟩
  | delPacketFormat topic key =>
      cases hexec
      rcases delG1Fmt_cases s topic key with heq | ⟨pdt, fmt, hget, _, heq⟩
      · exact Or.inl heq
      · obtain ⟨attrMap, hfst⟩ := delG1FmtInternal_fst pdt s.gAttrMap fmt
        rw [hfst] at heq
        exact Or.inr ⟨topic, pdt, _, _, _, hget, heq⟩
  | addFormatToken topic key tokenTopic type offset len =>
      cases hexec
      rcases addG1Token_cases s topic key tokenTopic type offset.toNat len.toNat with
        heq | ⟨pdt, fmt, tokens, attr, eattr, hget, _, _, _, _, _, _, _, _, _, _, heq⟩
      · exact Or.inl heq
      · exact Or.inr ⟨topic, pdt, _, _, _, hget, heq⟩
  | delFormatToken topic key tokenTopic =>
      cases hexec
      rcases delG1Token_cases s topic key tokenTopic with ⟨heq, _⟩ | ⟨pdt, fmt, _, _, hget, _, heq⟩
      · exact Or.inl heq
      · rw [delPdtAttr_fst] at heq
        exact Or.inr ⟨topic, pdt, _, _, _, hget, heq⟩
  | _ => exact absurd hc id

/-- The other commands change the attributes and the products only. -/
theorem Command.exec_frame {s s' : EdgeState} {c : Command} (hexec : (c.exec s).val = some s')
    (hc : ¬ c.IsDevice) :
    ∃ attrs pdts next,
      s' = { s with gAttrMap := attrs, gPdtMap := pdts, nextSerial := next } := by
  have hedit : c.EditsProduct → ∃ attrs pdts next,
      s' = { s with gAttrMap := attrs, gPdtMap := pdts, nextSerial := next } := fun hedits => by
    rcases Command.exec_edit hexec hedits with heq | ⟨_, _, _, _, _, _, heq⟩
    · exact ⟨_, _, _, heq⟩
    · exact ⟨_, _, _, heq⟩
  cases c with
  | addProduct topic endian =>
      cases hexec
      rcases addPdt_cases s topic endian with ⟨heq, _⟩ | ⟨pdt, _, _, _, _, _, _, heq⟩
      · exact ⟨_, _, _, heq⟩
      · exact ⟨_, _, _, heq⟩
  | delProduct topic =>
      cases hexec
      rcases delPdt_cases s topic with ⟨heq, _⟩ | ⟨pdt, _, heq⟩
      · exact ⟨_, _, _, heq⟩
      · exact ⟨_, _, _, heq⟩
  | addDevice addr len linkType module topic => exact absurd trivial hc
  | delDevice addr len linkType => exact absurd trivial hc
  | _ => exact hedit trivial

namespace EdgeState

/-- After one product was changed, that product decides. -/
theorem forall_putPdt_iff {s : EdgeState} {P : EdgePdt → Prop} {pdt : EdgePdt}
    {g : Registry UInt32 EdgeAttr} (h : ∀ topic p, s.gPdtMap.get topic = some p → P p) :
    (∀ topic p, (s.putPdt pdt g).gPdtMap.get topic = some p → P p) ↔ P pdt :=
  Registry.forall_put_iff h pdt

/-! ## Receptions and passes -/

theorem sameConfig_doDeviceUpdate (s : EdgeState) : SameConfig s s.doDeviceUpdate := by
  rcases doDeviceUpdate_cases s with ⟨last, _, h⟩ | ⟨gDevMap, out, _, _, h, _⟩
  · rw [h]
    exact .of_eq rfl rfl
  · rw [h]
    exact .of_eq rfl rfl

theorem sameConfig_ageScan {now : ℕ} {oids : List Oid} {s s' : EdgeState}
    (h : ageScan now oids s = some s') : SameConfig s s' :=
  ageScan_rel SameConfig.refl (fun _ _ _ => SameConfig.trans)
    (fun _ _ _ _ _ hdel => sameConfig_delDevInternal hdel) h

theorem sameConfig_doDeviceAgeing {s s' : EdgeState} (h : s.doDeviceAgeing = some s') :
    SameConfig s s' := by
  unfold doDeviceAgeing at h
  simp only at h
  split at h
  · cases h
    exact .of_eq rfl rfl
  · split at h
    · obtain ⟨s₁, hscan, rfl⟩ := Option.map_eq_some_iff.mp h
      have hsame : SameConfig s.tickClock s₁ := sameConfig_ageScan hscan
      exact ⟨hsame.attr, hsame.get, hsame.total⟩
    · cases h
      exact .of_eq rfl rfl

theorem sameConfig_edgeRcvPkt {env : Env} {s s' : EdgeState} {type : UInt32} {module : UInt64}
    {pkt : Buf} {size : UInt64} {ret : ℕ}
    (h : (s.edgeRcvPkt env type module pkt size).val = some (ret, s')) : SameConfig s s' := by
  obtain ⟨k, file, msgs, _, rfl | ⟨dev, s₁, dev₁, _, hsteps, rfl⟩⟩ := edgeRcvPkt_cases h
  · exact .of_eq rfl rfl
  · obtain ⟨⟨j, out, rfl⟩, _⟩ := hsteps.frame
    exact .of_eq rfl rfl

theorem ControlStep.sameConfig {s s' : EdgeState} (h : ControlStep s s') : SameConfig s s' := by
  obtain ⟨k, ctl, stat, tick, msgs, _, _, _, rfl⟩ := h
  exact .of_eq rfl rfl

end EdgeState

/-- For an invariant of the configuration only the commands matter. -/
theorem keptIff_of_sameConfig {env : Env} {K I : EdgeState → Prop}
    {C : EdgeState → Command → Prop}
    (hI : ∀ {s s'}, EdgeState.SameConfig s s' → I s → I s')
    (command : ∀ {s c s'}, K s → I s → (Command.exec s c).val = some s' → (I s' ↔ C s c))
    (stat : ∀ {s c} stat, C { s with stat := stat } c ↔ C s c) : KeptIff env K I C where
  command := command
  packet := fun _ hIs h => hI (EdgeState.sameConfig_edgeRcvPkt h) hIs
  ageing := fun _ hIs h => hI (EdgeState.sameConfig_doDeviceAgeing h) hIs
  update := fun {s} _ hIs => hI (EdgeState.sameConfig_doDeviceUpdate s) hIs
  control := fun hIs h => hI h.sameConfig hIs
  stat := stat

theorem kept_of_sameConfig {env : Env} {I : EdgeState → Prop}
    (hI : ∀ {s s'}, EdgeState.SameConfig s s' → I s → I s')
    (command : ∀ {s c s'}, I s → (Command.exec s c).val = some s' → I s') : Kept env I where
  command := command
  packet := fun hIs h => hI (EdgeState.sameConfig_edgeRcvPkt h) hIs
  ageing := fun hIs h => hI (EdgeState.sameConfig_doDeviceAgeing h) hIs
  update := fun {s} hIs => hI (EdgeState.sameConfig_doDeviceUpdate s) hIs
  control := fun hIs h => hI h.sameConfig hIs

end EceLib
