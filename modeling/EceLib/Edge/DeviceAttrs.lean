import EceLib.Edge.Owners
import EceLib.Edge.Payload
import EceLib.Edge.References

/-!
# Attributes of devices and of their products

A device stores values for the topics of the tokens that were read for it, and
its product counts the tokens that extract a topic.  `del_pdt_attr` takes a
topic from the product with its last reference, and would have to delete the
values of the devices there: only its comment does.
-/

namespace EceLib

open Support

/-- The device has a value for a topic. -/
def Dev.Holds (dev : Dev) (t : UInt32) : Prop := (dev.attrMap.get t).isSome

/-- The product has an attribute for a topic. -/
def EdgePdt.Provides (pdt : EdgePdt) (t : UInt32) : Prop := (pdt.attrMap.get t).isSome

namespace EdgeState

/-- A device of the product has a value for the topic. -/
def HeldOf (s : EdgeState) (pdt : EdgePdt) (t : UInt32) : Prop :=
  ∃ oid dev, s.gDevMap.get oid = some dev ∧ dev.pdt = pdt.ptr ∧ dev.Holds t

/-- Devices hold only attributes of their product: in their map, in the next
report pass, and in what the rule engine is fed. -/
structure AttrsOfProduct (s : EdgeState) : Prop where
  held : ∀ oid dev pdt t, s.gDevMap.get oid = some dev → s.deref dev.pdt = some pdt →
    dev.Holds t → pdt.Provides t
  reported : ∃ new, s.doDeviceUpdate.out = new ++ s.out ∧
    ∀ oid dev pdt attr scenerioId, s.gDevMap.get oid = some dev → s.deref dev.pdt = some pdt →
      Output.report oid attr scenerioId ∈ new → pdt.Provides attr.topic
  fed : ∀ oid dev pdt, s.gDevMap.get oid = some dev → s.deref dev.pdt = some pdt →
    ∀ entry ∈ dev.attrMap.entries, pdt.Provides entry.2.topic

/-! ## What is reported is held -/

/-- A fold sends what its steps send. -/
theorem out_foldl {α : Type} {f : EdgeState → α → EdgeState} {Sent : α → Output → Prop}
    (hf : ∀ s a, ∃ new, (f s a).out = new ++ s.out ∧ ∀ o ∈ new, Sent a o) (l : List α)
    (s : EdgeState) :
    ∃ new, (l.foldl f s).out = new ++ s.out ∧ ∀ o ∈ new, ∃ a ∈ l, Sent a o := by
  induction l generalizing s with
  | nil => exact ⟨[], rfl, by simp⟩
  | cons a l ih =>
      obtain ⟨new₁, hout₁, hnew₁⟩ := hf s a
      obtain ⟨new, hout, hnew⟩ := ih (f s a)
      refine ⟨new ++ new₁, ?_, fun o hmem => ?_⟩
      · rw [List.foldl_cons, hout, hout₁, List.append_assoc]
      · rcases List.mem_append.mp hmem with hmem | hmem
        · obtain ⟨b, hb, hsent⟩ := hnew o hmem
          exact ⟨b, List.mem_cons_of_mem _ hb, hsent⟩
        · exact ⟨a, List.mem_cons_self, hnew₁ o hmem⟩

/-- The report on an attribute that a device holds. -/
def ReportOn (dev : Dev) (o : Output) : Prop :=
  ∃ entry ∈ dev.attrMap.entries, ∃ scenerioId, o = .report dev.oid entry.2 scenerioId

theorem out_hashUpdateDev (s : EdgeState) (dev : Dev) :
    ∃ new, (s.hashUpdateDev dev).out = new ++ s.out ∧ ∀ o ∈ new, ReportOn dev o := by
  unfold hashUpdateDev
  split
  · have hreport : ∀ (s : EdgeState) (entry : UInt32 × AttrVal),
        ∃ new, (s.reportDevAttr dev entry.2).out = new ++ s.out ∧
          ∀ o ∈ new, ∃ scenerioId, o = .report dev.oid entry.2 scenerioId := fun s entry =>
      ⟨[.report dev.oid entry.2 s.ctl.scenerioId], rfl, fun o hmem =>
        ⟨_, List.mem_singleton.mp hmem⟩⟩
    exact out_foldl hreport dev.attrMap.entries s
  · exact ⟨[], rfl, by simp⟩

/-- A pass reports values that registered devices hold. -/
theorem out_doDeviceUpdate (s : EdgeState) :
    ∃ new, s.doDeviceUpdate.out = new ++ s.out ∧
      ∀ oid attr scenerioId, Output.report oid attr scenerioId ∈ new →
        ∃ dev, s.gDevMap.get oid = some dev ∧ dev.attrMap.get attr.topic = some attr := by
  unfold doDeviceUpdate
  simp only
  split
  · exact ⟨[], rfl, by simp⟩
  · split
    · have hupdate : ∀ (s : EdgeState) (entry : Oid × Dev),
          ∃ new, (s.hashUpdateDev entry.2).out = new ++ s.out ∧
            ∀ o ∈ new, ReportOn entry.2 o := fun s entry => s.out_hashUpdateDev entry.2
      obtain ⟨new, hout, hnew⟩ := out_foldl hupdate s.gDevMap.entries s.tickClock
      refine ⟨new, hout, fun oid attr scenerioId hmem => ?_⟩
      obtain ⟨⟨key, dev⟩, hentry, ⟨topic, v⟩, hstored, _, heq⟩ := hnew _ hmem
      cases heq
      have hdev := Registry.mem_entries_iff.mp hentry
      have hattr := Registry.mem_entries_iff.mp hstored
      have hkey : dev.oid = key := Registry.key_of_get hdev
      have htopic : v.topic = topic := Registry.key_of_get hattr
      refine ⟨dev, ?_, ?_⟩
      · rw [hkey]
        exact hdev
      · rw [htopic]
        exact hattr
    · exact ⟨[], rfl, by simp⟩

/-- It is enough to look at the maps of the devices. -/
theorem attrsOfProduct_iff {s : EdgeState} :
    s.AttrsOfProduct ↔ ∀ oid dev pdt t, s.gDevMap.get oid = some dev →
      s.deref dev.pdt = some pdt → dev.Holds t → pdt.Provides t := by
  refine ⟨fun h => h.held, fun h => ⟨h, ?_, ?_⟩⟩
  · obtain ⟨new, hout, hnew⟩ := s.out_doDeviceUpdate
    refine ⟨new, hout, fun oid dev pdt attr scenerioId hdev hpdt hmem => ?_⟩
    obtain ⟨dev', hdev', hattr⟩ := hnew oid attr scenerioId hmem
    obtain rfl := Option.some.inj (hdev.symm.trans hdev')
    exact h oid dev pdt attr.topic hdev hpdt (Option.isSome_of_eq_some hattr)
  · rintro oid dev pdt hdev hpdt ⟨topic, attr⟩ hentry
    have hattr := Registry.mem_entries_iff.mp hentry
    have htopic : attr.topic = topic := Registry.key_of_get hattr
    rw [htopic]
    exact h oid dev pdt topic hdev hpdt (Option.isSome_of_eq_some hattr)

/-! ## Steps that give no device a value -/

/-- The configuration is the same, and what a device holds now it held before. -/
structure NoNewValues (s s' : EdgeState) : Prop where
  config : SameConfig s s'
  held : ∀ oid dev' t, s'.gDevMap.get oid = some dev' → dev'.Holds t →
    ∃ dev, s.gDevMap.get oid = some dev ∧ dev.pdt = dev'.pdt ∧ dev.Holds t

theorem NoNewValues.of_get {s s' : EdgeState} (hconfig : SameConfig s s')
    (hdev : ∀ oid dev', s'.gDevMap.get oid = some dev' → s.gDevMap.get oid = some dev') :
    NoNewValues s s' where
  config := hconfig
  held := fun oid dev' _ hget hholds => ⟨dev', hdev oid dev' hget, rfl, hholds⟩

/-- The devices store the same. -/
theorem NoNewValues.of_values {s s' : EdgeState} (hconfig : SameConfig s s')
    (hvalues : ∀ oid, (s'.gDevMap.get oid).map Dev.values = (s.gDevMap.get oid).map Dev.values) :
    NoNewValues s s' where
  config := hconfig
  held := fun oid dev' t hget hholds => by
    have heq := hvalues oid
    rw [hget, Option.map_some] at heq
    obtain ⟨dev, hdev, hsame⟩ := Option.map_eq_some_iff.mp heq.symm
    obtain ⟨hpdt, hattr⟩ := Prod.mk.inj hsame
    refine ⟨dev, hdev, hpdt, ?_⟩
    rw [Dev.Holds, hattr]
    exact hholds

theorem NoNewValues.refl (s : EdgeState) : NoNewValues s s := .of_get (.refl s) fun _ _ h => h

theorem NoNewValues.trans {s s₁ s₂ : EdgeState} (h₁ : NoNewValues s s₁)
    (h₂ : NoNewValues s₁ s₂) : NoNewValues s s₂ where
  config := h₁.config.trans h₂.config
  held := fun oid dev₂ t hget hholds => by
    obtain ⟨dev₁, hget₁, hpdt₁, hholds₁⟩ := h₂.held oid dev₂ t hget hholds
    obtain ⟨dev, hget₀, hpdt, hholds₀⟩ := h₁.held oid dev₁ t hget₁ hholds₁
    exact ⟨dev, hget₀, hpdt.trans hpdt₁, hholds₀⟩

/-- A pointer to a product leads to the same configuration. -/
theorem SameConfig.exists_deref {s s' : EdgeState} (h : SameConfig s s') {ptr : PdtPtr}
    {pdt' : EdgePdt} (hderef : s'.deref ptr = some pdt') :
    ∃ pdt, s.deref ptr = some pdt ∧ pdt.attrMap = pdt'.attrMap ∧ pdt.endian = pdt'.endian := by
  obtain ⟨hget', hptr⟩ := deref_eq_some_iff.mp hderef
  obtain ⟨pdt, hget, hconfig⟩ := h.exists_get hget'
  have hattr : pdt.attrMap = pdt'.attrMap := by
    simpa only [EdgePdt.config] using congrArg EdgePdt.attrMap hconfig
  have hendian : pdt.endian = pdt'.endian := by
    simpa only [EdgePdt.config] using congrArg EdgePdt.endian hconfig
  have hsame : pdt.ptr = pdt'.ptr := by
    simpa only [EdgePdt.config, EdgePdt.ptr] using congrArg EdgePdt.ptr hconfig
  exact ⟨pdt, deref_eq_some_iff.mpr ⟨hget, hsame.trans hptr⟩, hattr, hendian⟩

theorem AttrsOfProduct.noNewValues {s s' : EdgeState} (h : s.AttrsOfProduct)
    (hstep : NoNewValues s s') : s'.AttrsOfProduct := by
  refine attrsOfProduct_iff.mpr fun oid dev' pdt' t hget hderef hholds => ?_
  obtain ⟨dev, hdev, hpdt, hholds₀⟩ := hstep.held oid dev' t hget hholds
  obtain ⟨pdt, hderef₀, hattr, _⟩ := hstep.config.exists_deref hderef
  rw [EdgePdt.Provides, ← hattr]
  exact h.held oid dev pdt t hdev (hpdt ▸ hderef₀) hholds₀

theorem noNewValues_addDevInternal {s : EdgeState} {topic : UInt32} {pdt : EdgePdt} (oid : Oid)
    (module : ℕ) (hget : s.gPdtMap.get topic = some pdt) :
    NoNewValues s (s.addDevInternal pdt oid module).2 where
  config := sameConfig_addDevInternal oid module hget
  held := fun i dev' t hdev hholds => by
    unfold addDevInternal at hdev
    split at hdev
    · exact ⟨dev', hdev, rfl, hholds⟩
    · have hput : ((s.gDevMap.put _).get i) = some dev' := hdev
      rw [Registry.get_put] at hput
      split at hput
      · -- the new device has no values
        cases hput
        simp [Dev.Holds] at hholds
      · exact ⟨dev', hput, rfl, hholds⟩

/-- A deletion leaves the other devices as they are. -/
theorem get_of_delDevInternal {s s' : EdgeState} {dev : Dev} (h : s.delDevInternal dev = some s')
    {oid : Oid} {dev' : Dev} (hget : s'.gDevMap.get oid = some dev') :
    s.gDevMap.get oid = some dev' := by
  unfold delDevInternal at h
  cases hpdt : s.deref dev.pdt with
  | none => simp [hpdt] at h
  | some pdt =>
      simp only [hpdt, Option.some.injEq] at h
      subst h
      have hremove : (s.gDevMap.remove dev.oid).get oid = some dev' := hget
      rw [Registry.get_remove] at hremove
      split at hremove
      · cases hremove
      · exact hremove

/-- The ageing only deletes devices. -/
theorem get_of_doDeviceAgeing {s s' : EdgeState} (h : s.doDeviceAgeing = some s') {oid : Oid}
    {dev' : Dev} (hget : s'.gDevMap.get oid = some dev') : s.gDevMap.get oid = some dev' := by
  unfold doDeviceAgeing at h
  simp only at h
  split at h
  · cases h
    exact hget
  · split at h
    · obtain ⟨s₁, hscan, rfl⟩ := Option.map_eq_some_iff.mp h
      have hsubset : ∀ i dev₁, s₁.gDevMap.get i = some dev₁ →
          s.tickClock.gDevMap.get i = some dev₁ :=
        ageScan_rel (R := fun s s' => ∀ i dev, s'.gDevMap.get i = some dev →
            s.gDevMap.get i = some dev) (fun _ _ _ h => h)
          (fun _ _ _ h₁ h₂ i dev h => h₁ i dev (h₂ i dev h))
          (fun _ _ _ _ _ hdel _ _ h => get_of_delDevInternal hdel h) hscan
      exact hsubset oid dev' hget
    · cases h
      exact hget

theorem noNewValues_delDevInternal {s s' : EdgeState} {dev : Dev}
    (h : s.delDevInternal dev = some s') : NoNewValues s s' :=
  .of_get (sameConfig_delDevInternal h) fun _ _ hget => get_of_delDevInternal h hget

/-- Commands about devices. -/
theorem noNewValues_device {s s' : EdgeState} {c : Command} (hc : c.IsDevice)
    (h : (c.exec s).val = some s') : NoNewValues s s' := by
  cases c with
  | addDevice addr len linkType module topic =>
      simp only [Command.exec, Traced.val_bind, Option.bind_eq_some_iff, Traced.val_pure] at h
      obtain ⟨⟨dev, s₁⟩, hadd, heq⟩ := h
      cases heq
      rcases addDev_cases hadd with rfl | ⟨pdt, _, _, hget, rfl⟩
      · exact .refl _
      · exact noNewValues_addDevInternal _ _ hget
  | delDevice addr len linkType =>
      rcases delDev_cases h with rfl | ⟨dev, _, hdel⟩
      · exact .refl _
      · exact noNewValues_delDevInternal hdel
  | _ => exact absurd hc id

theorem noNewValues_doDeviceAgeing {s s' : EdgeState} (h : s.doDeviceAgeing = some s') :
    NoNewValues s s' :=
  .of_get (sameConfig_doDeviceAgeing h) fun _ _ hget => get_of_doDeviceAgeing h hget

theorem noNewValues_doDeviceUpdate (s : EdgeState) : NoNewValues s s.doDeviceUpdate := by
  refine .of_values (sameConfig_doDeviceUpdate s) fun oid => ?_
  rcases doDeviceUpdate_cases s with ⟨last, _, h⟩ | ⟨gDevMap, out, _, _, h, hget, _⟩
  · rw [h]
    rfl
  · rw [h]
    simp only [hget, Option.map_map]
    congr 1
    funext dev
    simp only [Function.comp_apply, Dev.values, Dev.noteReport_pdt, Dev.noteReport_attrMap]

theorem ControlStep.noNewValues {s s' : EdgeState} (h : ControlStep s s') : NoNewValues s s' := by
  refine .of_get h.sameConfig fun oid dev' hget => ?_
  obtain ⟨k, ctl, stat, tick, msgs, _, _, _, rfl⟩ := h
  exact hget

theorem noNewValues_doMgtPeriodic {env : Env} {s s' : EdgeState}
    (h : s.doMgtPeriodic env = some s') : NoNewValues s s' := by
  obtain ⟨s₁, s₂, hctl, hage, hrest⟩ := doMgtPeriodic_cases h
  have hbefore : NoNewValues s s₂ := hctl.noNewValues.trans (noNewValues_doDeviceAgeing hage)
  rcases hrest with hctl₂ | hctl₂
  · exact hbefore.trans hctl₂.noNewValues
  · exact (hbefore.trans (noNewValues_doDeviceUpdate s₂)).trans hctl₂.noNewValues

/-! ## Changes of a product -/

theorem deref_putPdt {s : EdgeState} {topic : UInt32} {pdt pdt' : EdgePdt}
    (g : Registry UInt32 EdgeAttr) (hget : s.gPdtMap.get topic = some pdt)
    (hptr : pdt'.ptr = pdt.ptr) (ptr : PdtPtr) :
    (s.putPdt pdt' g).deref ptr = if ptr = pdt.ptr then some pdt' else s.deref ptr := by
  have hkey : pdt.topic = topic := Registry.key_of_get hget
  have hkey' : pdt'.topic = topic := (congrArg PdtPtr.topic hptr).trans hkey
  by_cases hsame : ptr = pdt.ptr
  · rw [if_pos hsame, hsame]
    refine deref_eq_some_iff.mpr ⟨?_, hptr⟩
    change (s.gPdtMap.put pdt').get pdt.topic = some pdt'
    rw [hkey, ← hkey']
    exact Registry.get_put_self s.gPdtMap pdt'
  · rw [if_neg hsame]
    apply Option.ext
    intro p
    rw [deref_eq_some_iff, deref_eq_some_iff]
    refine and_congr_left fun hp => ?_
    change (s.gPdtMap.put pdt').get ptr.topic = some p ↔ _
    rw [Registry.get_put]
    by_cases htopic : ptr.topic = Keyed.key pdt'
    · -- a product of another serial number, so neither finds it
      rw [if_pos htopic, htopic.trans hkey', hget]
      constructor
      · rintro ⟨rfl⟩
        exact absurd (hp.symm.trans hptr) hsame
      · rintro ⟨rfl⟩
        exact absurd hp.symm hsame
    · rw [if_neg htopic]

theorem deref_ptr {s : EdgeState} {topic : UInt32} {pdt : EdgePdt}
    (hget : s.gPdtMap.get topic = some pdt) : s.deref pdt.ptr = some pdt := by
  have hkey : pdt.topic = topic := Registry.key_of_get hget
  exact deref_eq_some_iff.mpr ⟨(congrArg s.gPdtMap.get hkey).trans hget, rfl⟩

/-- A new product has a serial number that is not yet in use. -/
theorem deref_of_addPdt {s : EdgeState} {topic endian : UInt32} {ptr : PdtPtr} {pdt : EdgePdt}
    (hold : ptr.serial < s.nextSerial) (h : (s.addPdt topic endian).2.deref ptr = some pdt) :
    s.deref ptr = some pdt := by
  rcases addPdt_cases s topic endian with ⟨heq, _⟩ | ⟨pdt', _, _, hserial, _, _, _, heq⟩
  · rwa [heq] at h
  · rw [heq] at h
    obtain ⟨hget, hptr⟩ := deref_eq_some_iff.mp h
    have hput : (s.gPdtMap.put pdt').get ptr.topic = some pdt := hget
    rw [Registry.get_put] at hput
    split at hput
    · cases hput
      rw [← hptr] at hold
      change pdt.serial < s.nextSerial at hold
      omega
    · exact deref_eq_some_iff.mpr ⟨hput, hptr⟩

theorem deref_of_delPdt {s : EdgeState} {topic : UInt32} {ptr : PdtPtr} {pdt : EdgePdt}
    (h : (s.delPdt topic).deref ptr = some pdt) : s.deref ptr = some pdt := by
  rcases delPdt_cases s topic with ⟨heq, _⟩ | ⟨pdt', _, heq⟩
  · rwa [heq] at h
  · rw [heq] at h
    obtain ⟨hget, hptr⟩ := deref_eq_some_iff.mp h
    have hremove : (s.gPdtMap.remove topic).get ptr.topic = some pdt := hget
    rw [Registry.get_remove] at hremove
    split at hremove
    · cases hremove
    · exact deref_eq_some_iff.mpr ⟨hremove, hptr⟩

/-- After one product was changed, that product has to provide what its devices
hold. -/
theorem AttrsOfProduct.putPdt_iff {s : EdgeState} (h : s.AttrsOfProduct) {topic : UInt32}
    {pdt pdt' : EdgePdt} (g : Registry UInt32 EdgeAttr) (hget : s.gPdtMap.get topic = some pdt)
    (hptr : pdt'.ptr = pdt.ptr) :
    (s.putPdt pdt' g).AttrsOfProduct ↔ ∀ t, s.HeldOf pdt t → pdt'.Provides t := by
  rw [attrsOfProduct_iff]
  constructor
  · rintro hall t ⟨oid, dev, hdev, hpdt, hholds⟩
    refine hall oid dev pdt' t hdev ?_ hholds
    rw [deref_putPdt g hget hptr, if_pos hpdt]
  · intro hheld oid dev p t hdev hderef hholds
    rw [deref_putPdt g hget hptr] at hderef
    split at hderef
    · rename_i hpdt
      cases hderef
      exact hheld t ⟨oid, dev, hdev, hpdt, hholds⟩
    · exact h.held oid dev p t hdev hderef hholds

theorem AttrsOfProduct.provides {s : EdgeState} (h : s.AttrsOfProduct) {topic t : UInt32}
    {pdt : EdgePdt} (hget : s.gPdtMap.get topic = some pdt) (hheld : s.HeldOf pdt t) :
    pdt.Provides t := by
  obtain ⟨oid, dev, hdev, hpdt, hholds⟩ := hheld
  exact h.held oid dev pdt t hdev (hpdt ▸ deref_ptr hget) hholds

/-- A product that provides more than before. -/
theorem AttrsOfProduct.putPdt {s : EdgeState} (h : s.AttrsOfProduct) {topic : UInt32}
    {pdt pdt' : EdgePdt} (g : Registry UInt32 EdgeAttr) (hget : s.gPdtMap.get topic = some pdt)
    (hptr : pdt'.ptr = pdt.ptr) (hmore : ∀ t, pdt.Provides t → pdt'.Provides t) :
    (s.putPdt pdt' g).AttrsOfProduct := by
  refine (h.putPdt_iff g hget hptr).mpr fun t hheld => ?_
  exact hmore t (h.provides hget hheld)

/-- A new product has no devices yet. -/
theorem AttrsOfProduct.addPdt {s : EdgeState} (h : s.AttrsOfProduct) (hs : s.OwnersSound)
    (topic endian : UInt32) : (s.addPdt topic endian).2.AttrsOfProduct := by
  have hdevs : (s.addPdt topic endian).2.gDevMap = s.gDevMap := by
    rcases addPdt_cases s topic endian with ⟨heq, _⟩ | ⟨_, _, _, _, _, _, _, heq⟩
    · rw [heq]
    · rw [heq]
  refine attrsOfProduct_iff.mpr fun oid dev pdt t hdev hderef hholds => ?_
  rw [hdevs] at hdev
  have hold : dev.pdt.serial < s.nextSerial := hs.owner_fresh (ownership_owner hdev)
  exact h.held oid dev pdt t hdev (deref_of_addPdt hold hderef) hholds

/-- The devices of a product that is deleted are left alone. -/
theorem AttrsOfProduct.delPdt {s : EdgeState} (h : s.AttrsOfProduct) (topic : UInt32) :
    (s.delPdt topic).AttrsOfProduct := by
  have hdevs : (s.delPdt topic).gDevMap = s.gDevMap := by
    rcases delPdt_cases s topic with ⟨heq, _⟩ | ⟨_, _, heq⟩
    · rw [heq]
    · rw [heq]
  refine attrsOfProduct_iff.mpr fun oid dev pdt t hdev hderef hholds => ?_
  rw [hdevs] at hdev
  exact h.held oid dev pdt t hdev (deref_of_delPdt hderef) hholds

end EdgeState

/-! ## The commands -/

/-- A command does not take the last reference to a topic from a product while a
device of it holds a value. -/
def ReleasesUnheld (s : EdgeState) : Command → Prop
  | .delPacketFormat topic key =>
      ∀ pdt fmt, s.gPdtMap.get topic = some pdt → pdt.fmtMap.get key = some fmt →
        ∀ t, s.HeldOf pdt t → topicCount fmt.token t < pdt.refs t
  | .delFormatToken topic key tokenTopic =>
      topic ≠ 0 → tokenTopic ≠ 0 →
        ∀ pdt fmt, s.gPdtMap.get topic = some pdt → pdt.fmtMap.get key = some fmt →
          s.HeldOf pdt tokenTopic → 1 < pdt.refs tokenTopic
  | _ => True

/-- A product still provides what its devices hold when references were given
back, precisely if they were not the last ones. -/
theorem Released.provides_iff {s : EdgeState} {pdt pdt' : EdgePdt}
    {g g' : Registry UInt32 EdgeAttr} {n : UInt32 → ℕ} (h : Released pdt g n pdt' g') :
    (∀ t, s.HeldOf pdt t → pdt'.Provides t) ↔ ∀ t, s.HeldOf pdt t → n t < pdt.refs t := by
  refine forall_congr' fun t => imp_congr_right fun _ => ?_
  rw [EdgePdt.Provides, h.held.isSome_iff]
  change 0 < pdt'.refs t ↔ _
  rw [h.refs]
  omega

theorem attrsOfProduct_delG1Fmt_iff {s : EdgeState} (hheld : s.AttrsHeld)
    (hI : s.AttrsOfProduct) (topic key : UInt32) :
    (delG1Fmt s topic key).AttrsOfProduct ↔ ReleasesUnheld s (.delPacketFormat topic key) := by
  have hfound : ∀ pdt fmt, s.gPdtMap.get topic = some pdt → pdt.fmtMap.get key = some fmt →
      ((delG1Fmt s topic key).AttrsOfProduct ↔
        ∀ t, s.HeldOf pdt t → topicCount fmt.token t < pdt.refs t) := by
    intro pdt fmt hget hfmt
    have hreleased := released_delG1FmtInternal (hheld.2 topic pdt hget) s.gAttrMap fmt
    obtain ⟨attrMap, hfst⟩ := delG1FmtInternal_fst pdt s.gAttrMap fmt
    have hptr : (delG1FmtInternal pdt s.gAttrMap fmt).1.ptr = pdt.ptr := by rw [hfst]; rfl
    rw [delG1Fmt_of_get hget hfmt, hI.putPdt_iff _ hget hptr, hreleased.provides_iff]
  constructor
  · intro hI' pdt fmt hget hfmt
    exact (hfound pdt fmt hget hfmt).mp hI'
  · intro hC
    rcases delG1Fmt_cases s topic key with heq | ⟨pdt, fmt, hget, hfmt, _⟩
    · exact heq.symm ▸ hI
    · exact (hfound pdt fmt hget hfmt).mpr (hC pdt fmt hget hfmt)

theorem attrsOfProduct_delG1Token_iff {s : EdgeState} (hheld : s.AttrsHeld)
    (hI : s.AttrsOfProduct) (topic key tokenTopic : UInt32) :
    (delG1Token s topic key tokenTopic).AttrsOfProduct ↔
      ReleasesUnheld s (.delFormatToken topic key tokenTopic) := by
  rcases delG1Token_cases s topic key tokenTopic with
    ⟨heq, hnone⟩ | ⟨pdt, fmt, htopic, htokenTopic, hget, hfmt, heq⟩
  · refine iff_of_true (heq.symm ▸ hI) fun htopic htokenTopic pdt fmt hget hfmt => ?_
    exact absurd hfmt (hnone htopic htokenTopic pdt fmt hget)
  · have hreleased := released_delPdtAttr (hheld.2 topic pdt hget) s.gAttrMap tokenTopic
    have hptr : ((delPdtAttr pdt s.gAttrMap tokenTopic).1.putFmt
        (delG1TokenInternal fmt tokenTopic)).ptr = pdt.ptr := by
      rw [delPdtAttr_fst]
      rfl
    rw [heq, hI.putPdt_iff _ hget hptr]
    refine hreleased.provides_iff.trans ?_
    constructor
    · intro hcount _ _ pdt₁ fmt₁ hget₁ _ hholds
      obtain rfl := Option.some.inj (hget.symm.trans hget₁)
      simpa using hcount tokenTopic hholds
    · intro hC t hholds
      by_cases ht : t = tokenTopic
      · subst ht
        simpa using hC htopic htokenTopic pdt fmt hget hfmt hholds
      · -- a topic that loses no reference
        rw [if_neg ht]
        exact (hheld.2 topic pdt hget).isSome_iff.mp (hI.provides hget hholds)

theorem attrsOfProduct_exec_iff {s s' : EdgeState} {c : Command} (hheld : s.AttrsHeld)
    (hs : s.OwnersSound) (hI : s.AttrsOfProduct) (hexec : (c.exec s).val = some s') :
    s'.AttrsOfProduct ↔ ReleasesUnheld s c := by
  cases c with
  | addProduct topic endian =>
      cases hexec
      exact iff_of_true (hI.addPdt hs topic endian) trivial
  | delProduct topic =>
      cases hexec
      exact iff_of_true (hI.delPdt topic) trivial
  | addPacketFormat pkt pktLen topic key size offset len =>
      refine iff_of_true ?_ trivial
      rcases addG1Fmt_cases hexec with ⟨_, rfl⟩ | ⟨pdt, hget, _, rfl⟩
      · exact hI
      · exact hI.putPdt _ hget rfl fun _ h => h
  | delPacketFormat topic key =>
      cases hexec
      exact attrsOfProduct_delG1Fmt_iff hheld hI topic key
  | addFormatToken topic key tokenTopic type offset len =>
      cases hexec
      refine iff_of_true ?_ trivial
      rcases addG1Token_cases s topic key tokenTopic type offset.toNat len.toNat with
        heq | ⟨pdt, fmt, tokens, attr, eattr, hget, _, _, _, _, _, _, _, _, _, _, heq⟩
      · exact heq.symm ▸ hI
      · rw [heq]
        refine hI.putPdt _ hget rfl fun t hprovides => ?_
        change ((pdt.attrMap.put attr).get t).isSome
        rw [Registry.get_put]
        split
        · rfl
        · exact hprovides
  | delFormatToken topic key tokenTopic =>
      cases hexec
      exact attrsOfProduct_delG1Token_iff hheld hI topic key tokenTopic
  | addDevice addr len linkType module topic =>
      have hdevice : (Command.addDevice addr len linkType module topic).IsDevice := trivial
      exact iff_of_true (hI.noNewValues (EdgeState.noNewValues_device hdevice hexec)) trivial
  | delDevice addr len linkType =>
      have hdevice : (Command.delDevice addr len linkType).IsDevice := trivial
      exact iff_of_true (hI.noNewValues (EdgeState.noNewValues_device hdevice hexec)) trivial

/-! ## Receptions -/

/-- What a device holds after the token loop: what it held, and the topics of
the tokens. -/
theorem tokenLoop_holds_iff {payload : Buf} {payloadLen : ℕ} {tokens : List G1Token}
    {s s' : EdgeState} {dev dev' : Dev}
    (h : (tokenLoop payload payloadLen tokens s dev).val = some (s', dev')) (t : UInt32) :
    dev'.Holds t ↔
      dev.Holds t ∨ ∃ token ∈ tokens, token.topic = t ∧ token.topic ≠ 0 ∧ token.len ≠ 0 := by
  induction tokens generalizing s dev with
  | nil =>
      cases h
      simp
  | cons token next ih =>
      rcases tokenLoop_cons_cases h with
        ⟨hnot, hnext⟩ | ⟨v, u, k, out, htopic, hdata, _, hu, _, hnext⟩
      · have hskip : ¬ (token.topic ≠ 0 ∧ token.len ≠ 0) := fun hand => hnot.elim hand.1 hand.2
        rw [ih hnext]
        simp [hskip]
      · rw [ih hnext]
        have hv : Keyed.key v = token.topic := hu.topic_eq
        have hput : ((dev.attrMap.put v).get t).isSome ↔ t = token.topic ∨ dev.Holds t := by
          rw [Registry.get_put, hv]
          by_cases ht : t = token.topic
          · simp [ht]
          · simp [ht, Dev.Holds]
        change ((dev.attrMap.put v).get t).isSome ∨ _ ↔ _
        rw [hput]
        simp only [List.mem_cons, exists_eq_or_imp, htopic, hdata, ne_eq, not_false_eq_true,
          and_true, eq_comm (a := t)]
        rw [or_comm (a := token.topic = t), or_assoc]

/-- A packet that is delivered extracts only attributes of the product. -/
def ExtractsProvided (s : EdgeState) : Event → Prop
  | .packet type _ pkt size =>
      ∀ fmt dev pdt, s.Delivered type pkt size fmt →
        s.gDevMap.get (pktOid type pkt size) = some dev → s.deref dev.pdt = some pdt →
        ∀ token ∈ fmt.token, token.topic ≠ 0 → token.len ≠ 0 → pdt.Provides token.topic
  | _ => True

theorem attrsOfProduct_edgeRcvPkt_iff {env : Env} {s s' : EdgeState} {type : UInt32}
    {module : UInt64} {pkt : Buf} {size : UInt64} {ret : ℕ} (hI : s.AttrsOfProduct)
    (h : (s.edgeRcvPkt env type module pkt size).val = some (ret, s')) :
    s'.AttrsOfProduct ↔ ExtractsProvided s (.packet type module pkt size) := by
  have hconfig := EdgeState.sameConfig_edgeRcvPkt h
  by_cases hdelivered : ∃ fmt, s.Delivered type pkt size fmt
  · obtain ⟨fmt, hdelivered⟩ := hdelivered
    obtain ⟨dev, ts, s₁, s₂, dev₂, hdev, _, hloop, hget⟩ := hdelivered.edgeRcvPkt h
    have hholds := tokenLoop_holds_iff hloop
    obtain ⟨_, _, hpdt₂, _⟩ := (tokenLoop_devSteps hloop).frame
    rw [EdgeState.attrsOfProduct_iff]
    constructor
    · intro hall fmt' dev' pdt hdelivered' hdev' hderef token hmem htopic hlen
      obtain rfl := Option.some.inj (hdelivered.format.symm.trans hdelivered'.format)
      obtain rfl := Option.some.inj (hdev.symm.trans hdev')
      obtain ⟨pdt', hderef', hattr, _⟩ := hconfig.symm.exists_deref hderef
      rw [EdgePdt.Provides, ← hattr]
      refine hall (pktOid type pkt size) dev₂ pdt' token.topic ?_ (hpdt₂ ▸ hderef') ?_
      · rw [hget, if_pos rfl]
      · exact (hholds _).mpr (Or.inr ⟨token, hmem, rfl, htopic, hlen⟩)
    · intro hC oid dev' pdt' t hdev' hderef' hholds'
      obtain ⟨pdt, hderef, hattr, _⟩ := hconfig.exists_deref hderef'
      rw [EdgePdt.Provides, ← hattr]
      rw [hget] at hdev'
      split at hdev'
      · cases hdev'
        rw [hpdt₂] at hderef
        rcases (hholds t).mp hholds' with hold | ⟨token, hmem, rfl, htopic, hlen⟩
        · exact hI.held _ dev pdt t hdev hderef hold
        · exact hC fmt dev pdt hdelivered hdev hderef token hmem htopic hlen
      · exact hI.held oid dev' pdt t hdev' hderef hholds'
  · have hvalues := EdgeState.values_edgeRcvPkt (fun fmt hfmt => hdelivered ⟨fmt, hfmt⟩) h
    refine iff_of_true (hI.noNewValues (.of_values hconfig hvalues)) ?_
    intro fmt _ _ hfmt
    exact absurd ⟨fmt, hfmt⟩ hdelivered

/-! ## Runs -/

/-- No last reference is taken while a value is held, and no value is stored
without a reference. -/
def KeepsAttrs (s : EdgeState) (e : Event) : Prop := e.Meets ReleasesUnheld s ∧ ExtractsProvided s e

theorem attrsOfProduct_step_iff {env : Env} {s s' : EdgeState} {e : Event} (hheld : s.AttrsHeld)
    (hs : s.OwnersSound) (hI : s.AttrsOfProduct) (hstep : s.step env e = some s') :
    s'.AttrsOfProduct ↔ KeepsAttrs s e := by
  -- an event that executes no command and gives no device a value
  have hquiet : e.command? = none → ExtractsProvided s e → EdgeState.NoNewValues s s' →
      (s'.AttrsOfProduct ↔ KeepsAttrs s e) := fun hnone hextracts hnew => by
    refine iff_of_true (hI.noNewValues hnew) ⟨fun c hc => ?_, hextracts⟩
    rw [hnone] at hc
    cases hc
  cases e with
  | command c =>
      rw [attrsOfProduct_exec_iff hheld hs hI hstep]
      constructor
      · exact fun hC => ⟨fun c' hc' => Option.some.inj hc' ▸ hC, trivial⟩
      · exact fun hC => hC.1 c rfl
  | message msg len =>
      obtain ⟨⟨ret, s₁⟩, hmsg, rfl⟩ := Option.map_eq_some_iff.mp hstep
      rcases EdgeState.mgtRcvMsg_cases hmsg with ⟨hdecode, hctl⟩ | ⟨c, stat, hdecode, hexec⟩
      · exact hquiet hdecode trivial hctl.noNewValues
      · have hctl := EdgeState.controlStep_stat s stat
        have hheld₁ := (kept_attrsHeld env).control hheld hctl
        have hs₁ := (kept_ownersSound env).control hs hctl
        rw [attrsOfProduct_exec_iff hheld₁ hs₁ (hI.noNewValues hctl.noNewValues) hexec]
        have hstat : ReleasesUnheld { s with stat := stat } c ↔ ReleasesUnheld s c := by
          cases c <;> exact Iff.rfl
        rw [hstat]
        constructor
        · refine fun hC => ⟨fun c' hc' => ?_, trivial⟩
          rw [Event.command?, hdecode] at hc'
          exact Option.some.inj hc' ▸ hC
        · exact fun hC => hC.1 c hdecode
  | packet type module pkt size =>
      obtain ⟨⟨ret, s₁⟩, hpkt, rfl⟩ := Option.map_eq_some_iff.mp hstep
      rw [attrsOfProduct_edgeRcvPkt_iff hI hpkt]
      refine (and_iff_right fun c hc => ?_).symm
      cases hc
  | ageing => exact hquiet rfl trivial (EdgeState.noNewValues_doDeviceAgeing hstep)
  | update =>
      cases hstep
      exact hquiet rfl trivial (EdgeState.noNewValues_doDeviceUpdate s)
  | periodic => exact hquiet rfl trivial (EdgeState.noNewValues_doMgtPeriodic hstep)

theorem attrsOfProduct_init (mac : List UInt8) (clock : ℕ → ℕ) :
    (EdgeState.init mac clock).AttrsOfProduct := by
  refine EdgeState.attrsOfProduct_iff.mpr fun oid dev pdt t hget => ?_
  simp [EdgeState.init] at hget

/-- In a run from the initial state the devices hold only attributes of their
products throughout, precisely when every step of the run keeps it so. -/
theorem attrsOfProduct_throughout_iff (env : Env) (mac : List UInt8) (clock : ℕ → ℕ)
    (es : List Event) :
    Throughout (EdgeState.step env) EdgeState.AttrsOfProduct (EdgeState.init mac clock) es ↔
      StepsMeet (EdgeState.step env) KeepsAttrs (EdgeState.init mac clock) es :=
  throughout_iff_stepsMeet (K := fun s => s.AttrsHeld ∧ s.OwnersSound)
    (fun _ _ _ hK hstep => ⟨(kept_attrsHeld env).step hK.1 hstep,
      (kept_ownersSound env).step hK.2 hstep⟩)
    (fun _ _ _ hK hI hstep => attrsOfProduct_step_iff hK.1 hK.2 hI hstep)
    ⟨attrsHeld_init mac clock, ownersSound_init mac clock⟩ (attrsOfProduct_init mac clock) es

/-- A value is stored for the only token of a topic, and the token deleted. -/
def deleteHeldTokenRun : List Event :=
  shortPayloadRun ++ [.packet 0 0 (Buf.ofBytes (shortPayloadPkt 5)) 19,
    .command (.delFormatToken 5 7 1)]

/-- The device still has the value. -/
theorem attrsOfProduct_fails_of_held_token :
    ¬ ∀ (env : Env) (mac : List UInt8) (clock : ℕ → ℕ) (es : List Event) (s : EdgeState),
      run (EdgeState.step env) (EdgeState.init mac clock) es = some s → s.AttrsOfProduct := by
  intro h
  have heval : (run (EdgeState.step Env.plain) (EdgeState.init [] fun _ => 0)
      deleteHeldTokenRun).map (fun s => s.gDevMap.entries.any fun entry =>
        (entry.2.attrMap.get 1).isSome && (s.deref entry.2.pdt).any fun pdt =>
          (pdt.attrMap.get 1).isNone) = some true := by
    decide +kernel
  obtain ⟨s, hrun, hany⟩ := Option.map_eq_some_iff.mp heval
  obtain ⟨⟨oid, dev⟩, hentry, hcheck⟩ := List.any_eq_true.mp hany
  obtain ⟨hholds, hpdt⟩ := Bool.and_eq_true_iff.mp hcheck
  obtain ⟨pdt, hderef, hnone⟩ := (Option.any_eq_true _ _).mp hpdt
  have hprovides := (h Env.plain [] (fun _ => 0) _ s hrun).held oid dev pdt 1
    (Registry.mem_entries_iff.mp hentry) hderef hholds
  rw [EdgePdt.Provides, Option.isSome_iff_ne_none] at hprovides
  exact hprovides (Option.isNone_iff_eq_none.mp hnone)

end EceLib
