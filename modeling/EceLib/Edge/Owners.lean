import EceLib.Edge.Config
import EceLib.Support.Ownership

/-!
# Devices and their products

A device points to its product, and the product lists its devices.  The two
registries are an instance of members and groups, with the topic as the name of
a product.  Only the deletion of a product that still has devices leaves
pointers to a product that is gone.
-/

namespace EceLib

open Support

namespace EdgeState

/-- Every registered device is in the list of a product that exists, exactly
once, and those lists hold registered devices only. -/
structure DevicesOwned (s : EdgeState) : Prop where
  live : ∀ oid dev, s.gDevMap.get oid = some dev →
    ∃ pdt, s.deref dev.pdt = some pdt ∧ pdt.head.count oid = 1
  registered : ∀ topic pdt, s.gPdtMap.get topic = some pdt → ∀ oid ∈ pdt.head,
    ∃ dev, s.gDevMap.get oid = some dev

/-- Who belongs to whom in a state. -/
def ownership (s : EdgeState) : Ownership Oid UInt32 where
  owner := fun oid => (s.gDevMap.get oid).map fun dev => (dev.pdt.topic, dev.pdt.serial)
  live := fun topic => (s.gPdtMap.get topic).map fun pdt => (pdt.serial, pdt.head)
  next := s.nextSerial

/-- The lists of the products and the pointers of the devices fit together. -/
def OwnersSound (s : EdgeState) : Prop := s.ownership.Sound

theorem ownership_live {s : EdgeState} {topic : UInt32} {pdt : EdgePdt}
    (h : s.gPdtMap.get topic = some pdt) :
    s.ownership.live topic = some (pdt.serial, pdt.head) := by
  simp [ownership, h]

theorem ownership_owner {s : EdgeState} {oid : Oid} {dev : Dev}
    (h : s.gDevMap.get oid = some dev) :
    s.ownership.owner oid = some (dev.pdt.topic, dev.pdt.serial) := by
  simp [ownership, h]

theorem devicesOwned_iff {s : EdgeState} (hs : s.OwnersSound) :
    s.DevicesOwned ↔ s.ownership.Complete := by
  constructor
  · intro h oid topic serial howner
    obtain ⟨dev, hdev, hptr⟩ := Option.map_eq_some_iff.mp howner
    obtain ⟨pdt, hderef, _⟩ := h.live oid dev hdev
    obtain ⟨hget, hpdt⟩ := deref_eq_some_iff.mp hderef
    obtain ⟨rfl, rfl⟩ := Prod.mk.inj hptr
    refine ⟨pdt.head, ?_⟩
    rw [ownership_live hget, ← hpdt]
    rfl
  · intro h
    refine ⟨?_, ?_⟩
    · intro oid dev hdev
      have howner := ownership_owner hdev
      obtain ⟨l, hlive⟩ := h oid _ _ howner
      obtain ⟨pdt, hpdt, hhead⟩ := Option.map_eq_some_iff.mp hlive
      obtain ⟨hserial, rfl⟩ := Prod.mk.inj hhead
      have hkey : pdt.topic = dev.pdt.topic := Registry.key_of_get hpdt
      refine ⟨pdt, deref_eq_some_iff.mpr ⟨hpdt, ?_⟩, ?_⟩
      · rw [EdgePdt.ptr, hkey, hserial]
      · exact List.count_eq_one_of_mem (hs.nodup hlive) (hs.listed hlive howner)
    · intro topic pdt hpdt oid hmem
      have howner := hs.owned (ownership_live hpdt) hmem
      obtain ⟨dev, hdev, _⟩ := Option.map_eq_some_iff.mp howner
      exact ⟨dev, hdev⟩

/-! ## Changes of the registries -/

theorem ownership_congr {s s' : EdgeState} (hdev : s'.gDevMap = s.gDevMap)
    (hpdt : s'.gPdtMap = s.gPdtMap) (hnext : s'.nextSerial = s.nextSerial) :
    s'.ownership = s.ownership := by
  simp only [ownership, hdev, hpdt, hnext]

/-- The registered products after one was put into the registry. -/
theorem live_put {r : Registry UInt32 EdgePdt} (pdt : EdgePdt) {topic : UInt32}
    (hkey : pdt.topic = topic) :
    (fun t => ((r.put pdt).get t).map fun pdt => (pdt.serial, pdt.head)) =
      Function.update (fun t => (r.get t).map fun pdt => (pdt.serial, pdt.head)) topic
        (some (pdt.serial, pdt.head)) := by
  subst hkey
  funext t
  rw [Registry.get_put]
  change Option.map _ (if t = pdt.topic then _ else _) = _
  by_cases h : t = pdt.topic
  · subst h
    simp
  · simp [h]

theorem owner_put {r : Registry Oid Dev} {dev : Dev} {oid : Oid} (hkey : dev.oid = oid) :
    (fun i => ((r.put dev).get i).map fun dev => (dev.pdt.topic, dev.pdt.serial)) =
      Function.update (fun i => (r.get i).map fun dev => (dev.pdt.topic, dev.pdt.serial)) oid
        (some (dev.pdt.topic, dev.pdt.serial)) := by
  subst hkey
  funext i
  rw [Registry.get_put]
  change Option.map _ (if i = dev.oid then _ else _) = _
  by_cases h : i = dev.oid
  · subst h
    simp
  · simp [h]

/-- A product is changed, but not its devices. -/
theorem ownership_putPdt {s : EdgeState} {topic : UInt32} {pdt pdt' : EdgePdt}
    {g : Registry UInt32 EdgeAttr} (hget : s.gPdtMap.get topic = some pdt)
    (hkey : pdt'.topic = topic) (hserial : pdt'.serial = pdt.serial)
    (hhead : pdt'.head = pdt.head) : (s.putPdt pdt' g).ownership = s.ownership := by
  have hlive : (s.putPdt pdt' g).ownership.live = s.ownership.live := by
    change (fun t => ((s.gPdtMap.put pdt').get t).map fun pdt => (pdt.serial, pdt.head)) = _
    rw [live_put _ hkey, hserial, hhead, ← ownership_live hget]
    exact Function.update_eq_self topic _
  simp only [ownership] at hlive ⊢
  simp only [hlive]
  rfl

/-- A device is changed, but not its product. -/
theorem ownership_putDev {s : EdgeState} {oid : Oid} {dev dev' : Dev}
    (hget : s.gDevMap.get oid = some dev) (hoid : dev'.oid = oid) (hpdt : dev'.pdt = dev.pdt) :
    (s.putDev dev').ownership = s.ownership := by
  have howner : (s.putDev dev').ownership.owner = s.ownership.owner := by
    change (fun i => ((s.gDevMap.put dev').get i).map
      fun dev => (dev.pdt.topic, dev.pdt.serial)) = _
    rw [owner_put hoid, hpdt, ← ownership_owner hget]
    exact Function.update_eq_self oid _
  simp only [ownership] at howner ⊢
  simp only [howner]
  rfl

theorem steps_putPdt {s : EdgeState} {topic : UInt32} {pdt pdt' : EdgePdt}
    {g : Registry UInt32 EdgeAttr} (hget : s.gPdtMap.get topic = some pdt)
    (hkey : pdt'.topic = topic) (hserial : pdt'.serial = pdt.serial)
    (hhead : pdt'.head = pdt.head) :
    Ownership.Steps s.ownership (s.putPdt pdt' g).ownership := by
  rw [ownership_putPdt hget hkey hserial hhead]

theorem steps_addDevInternal {s : EdgeState} {topic : UInt32} {pdt : EdgePdt} (oid : Oid)
    (module : ℕ) (hget : s.gPdtMap.get topic = some pdt) :
    Ownership.Steps s.ownership (s.addDevInternal pdt oid module).2.ownership := by
  have hkey : pdt.topic = topic := Registry.key_of_get hget
  unfold addDevInternal
  rw [Registry.containsKey_eq]
  cases hdev : s.gDevMap.get oid with
  | some dev => exact .refl
  | none =>
      have hstep := Ownership.Step.add (o := s.ownership) (i := oid)
        (by simp [ownership, hdev]) (ownership_live hget)
      refine .single ?_
      simp only [Option.isSome_none, Bool.false_eq_true, if_false]
      convert hstep using 1
      simp only [ownership]
      congr 1
      · rw [owner_put rfl]
        simp [EdgePdt.ptr, hkey]
      · exact live_put _ hkey

theorem steps_delDevInternal {s s' : EdgeState} {oid : Oid} {dev : Dev}
    (hget : s.gDevMap.get oid = some dev) (h : s.delDevInternal dev = some s') :
    Ownership.Steps s.ownership s'.ownership := by
  have hoid : dev.oid = oid := Registry.key_of_get hget
  unfold delDevInternal at h
  cases hderef : s.deref dev.pdt with
  | none => simp [hderef] at h
  | some pdt =>
      simp only [hderef, Option.some.injEq] at h
      obtain ⟨hpdt, hptr⟩ := deref_eq_some_iff.mp hderef
      have hkey : pdt.topic = dev.pdt.topic := Registry.key_of_get hpdt
      have hserial : pdt.serial = dev.pdt.serial := congrArg PdtPtr.serial hptr
      have hlive := ownership_live hpdt
      rw [hserial] at hlive
      have hstep := Ownership.Step.take (ownership_owner hget) hlive
      refine .single ?_
      subst h
      convert hstep using 1
      simp only [ownership]
      congr 1
      · funext i
        rw [Registry.get_remove, hoid]
        by_cases hi : i = oid
        · simp [hi]
        · simp [hi]
      · rw [← hserial, ← hoid]
        exact live_put { pdt with head := pdt.head.erase dev.oid } hkey

theorem steps_ageScan {now : ℕ} {oids : List Oid} {s s' : EdgeState}
    (h : ageScan now oids s = some s') : Ownership.Steps s.ownership s'.ownership := by
  apply ageScan_rel (R := fun s s' => Ownership.Steps s.ownership s'.ownership) _ _ _ h
  · exact fun _ => .refl
  · exact fun _ _ _ h₁ h₂ => h₁.trans h₂
  · exact fun _ _ _ _ hdev hdel => steps_delDevInternal hdev hdel

theorem steps_doDeviceAgeing {s s' : EdgeState} (h : s.doDeviceAgeing = some s') :
    Ownership.Steps s.ownership s'.ownership := by
  unfold doDeviceAgeing at h
  simp only at h
  split at h
  · cases h
    exact .refl
  · split at h
    · obtain ⟨s₁, hscan, rfl⟩ := Option.map_eq_some_iff.mp h
      have hsteps : Ownership.Steps s.tickClock.ownership s₁.ownership := steps_ageScan hscan
      exact hsteps
    · cases h
      exact .refl

theorem ownership_doDeviceUpdate (s : EdgeState) :
    s.doDeviceUpdate.ownership = s.ownership := by
  rcases doDeviceUpdate_cases s with ⟨last, _, h⟩ | ⟨gDevMap, out, _, _, h, hget, _⟩
  · rw [h]
    rfl
  · rw [h]
    simp only [ownership, advance, hget, Option.map_map, Function.comp_def, Dev.noteReport_pdt]

theorem ownership_edgeRcvPkt {env : Env} {s s' : EdgeState} {type : UInt32} {module : UInt64}
    {pkt : Buf} {size : UInt64} {ret : ℕ}
    (h : (s.edgeRcvPkt env type module pkt size).val = some (ret, s')) :
    s'.ownership = s.ownership := by
  obtain ⟨k, file, msgs, _, rfl | ⟨dev, s₁, dev₁, hget, hsteps, rfl⟩⟩ := edgeRcvPkt_cases h
  · rfl
  · obtain ⟨⟨j, out, rfl⟩, hoid, hpdt, _⟩ := hsteps.frame
    have hdev : dev.oid = pktOid type pkt size := Registry.key_of_get hget
    -- the device is put back by `fresh_dev` and once more at the end
    have hput : ∀ s₂ : EdgeState, s₂.gDevMap = (s.putDev dev₁).gDevMap →
        s₂.gPdtMap = s.gPdtMap → s₂.nextSerial = s.nextSerial →
        s₂.ownership = s.ownership := fun s₂ hd hp hn =>
      (ownership_congr hd hp hn).trans (ownership_putDev hget (hoid.trans hdev) hpdt)
    refine hput _ ?_ rfl rfl
    change (s.gDevMap.put _).put dev₁ = s.gDevMap.put dev₁
    exact Registry.put_put s.gDevMap hoid.symm

theorem ControlStep.ownership {s s' : EdgeState} (h : ControlStep s s') :
    s'.ownership = s.ownership := by
  obtain ⟨k, ctl, stat, tick, msgs, _, _, _, rfl⟩ := h
  rfl

theorem step_delPdt {s : EdgeState} (topic : UInt32) :
    (s.delPdt topic = s ∧ s.gPdtMap.get topic = none) ∨
      Ownership.Step (some topic) s.ownership (s.delPdt topic).ownership := by
  rcases delPdt_cases s topic with h | ⟨pdt, _, heq⟩
  · exact Or.inl h
  · refine Or.inr ?_
    have hstep := Ownership.Step.discard s.ownership topic
    rw [heq]
    convert hstep using 1
    simp only [ownership]
    congr 1
    funext t
    rw [Registry.get_remove]
    by_cases ht : t = topic
    · simp [ht]
    · simp [ht]

end EdgeState

/-- A product may be deleted when it has no devices. -/
def KeepsDevicesOwned (s : EdgeState) : Command → Prop
  | .delProduct topic => ∀ pdt, s.gPdtMap.get topic = some pdt → pdt.head = []
  | _ => True

/-- All commands but the deletion of a product. -/
theorem steps_command {s s' : EdgeState} {c : Command} (hexec : (c.exec s).val = some s')
    (hdel : ∀ topic, c ≠ .delProduct topic) : Ownership.Steps s.ownership s'.ownership := by
  have hedit : c.EditsProduct → Ownership.Steps s.ownership s'.ownership := fun hedits => by
    rcases Command.exec_edit hexec hedits with rfl | ⟨_, pdt, _, _, _, hget, rfl⟩
    · exact .refl
    · exact EdgeState.steps_putPdt hget (Registry.key_of_get hget) rfl rfl
  cases c with
  | addProduct topic endian =>
      cases hexec
      rcases addPdt_cases s topic endian with
        ⟨heq, _⟩ | ⟨pdt, hnone, hkey, hserial, hhead, _, _, heq⟩
      · rw [heq]
      · have hstep := Ownership.Step.create (o := s.ownership) (k := topic)
          (by simp [EdgeState.ownership, hnone])
        refine .single ?_
        rw [heq]
        convert hstep using 1
        simp only [EdgeState.ownership]
        congr 1
        rw [EdgeState.live_put _ hkey, hserial, hhead]
  | delProduct topic => exact absurd rfl (hdel topic)
  | addDevice addr len linkType module topic =>
      simp only [Command.exec, Traced.val_bind, Option.bind_eq_some_iff, Traced.val_pure] at hexec
      obtain ⟨⟨dev, s₁⟩, hadd, heq⟩ := hexec
      cases heq
      rcases EdgeState.addDev_cases hadd with rfl | ⟨pdt, _, _, hget, rfl⟩
      · exact .refl
      · exact EdgeState.steps_addDevInternal _ _ hget
  | delDevice addr len linkType =>
      rcases EdgeState.delDev_cases hexec with rfl | ⟨dev, hget, hdel⟩
      · exact .refl
      · exact EdgeState.steps_delDevInternal hget hdel
  | _ => exact hedit trivial

/-! ## Runs -/

theorem kept_ownersSound (env : Env) : Kept env EdgeState.OwnersSound where
  command := fun {s c s'} h hexec => by
    cases c with
    | delProduct topic =>
        cases hexec
        rcases EdgeState.step_delPdt topic with ⟨heq, _⟩ | hstep
        · exact heq.symm ▸ h
        · exact hstep.sound h
    | _ => exact (steps_command hexec (by simp)).sound h
  packet := fun h hpkt => by
    unfold EdgeState.OwnersSound
    rwa [EdgeState.ownership_edgeRcvPkt hpkt]
  ageing := fun h hage => (EdgeState.steps_doDeviceAgeing hage).sound h
  update := fun {s} h => by
    unfold EdgeState.OwnersSound
    rwa [EdgeState.ownership_doDeviceUpdate]
  control := fun h hctl => by
    unfold EdgeState.OwnersSound
    rwa [hctl.ownership]

theorem keptIff_devicesOwned (env : Env) :
    KeptIff env EdgeState.OwnersSound EdgeState.DevicesOwned KeepsDevicesOwned where
  command := fun {s c s'} hK hI hexec => by
    rw [EdgeState.devicesOwned_iff ((kept_ownersSound env).command hK hexec)]
    have hc := (EdgeState.devicesOwned_iff hK).mp hI
    cases c with
    | delProduct topic =>
        cases hexec
        rcases EdgeState.step_delPdt topic with ⟨heq, hnone⟩ | hstep
        · refine iff_of_true (heq.symm ▸ hc) ?_
          intro pdt hget
          rw [hnone] at hget
          cases hget
        · rw [hstep.complete_iff hK hc]
          constructor
          · intro h pdt hget
            exact h topic rfl _ _ (EdgeState.ownership_live hget)
          · rintro h topic' ⟨rfl⟩ n l hlive
            obtain ⟨pdt, hget, heq⟩ := Option.map_eq_some_iff.mp hlive
            cases heq
            exact h pdt hget
    | _ => exact iff_of_true ((steps_command hexec (by simp)).complete hK hc) trivial
  packet := fun hK hI hpkt => by
    have hK' := (kept_ownersSound env).packet hK hpkt
    rw [EdgeState.devicesOwned_iff hK', EdgeState.ownership_edgeRcvPkt hpkt]
    exact (EdgeState.devicesOwned_iff hK).mp hI
  ageing := fun hK hI hage => by
    have hK' := (kept_ownersSound env).ageing hK hage
    rw [EdgeState.devicesOwned_iff hK']
    exact (EdgeState.steps_doDeviceAgeing hage).complete hK ((EdgeState.devicesOwned_iff hK).mp hI)
  update := fun hK hI => by
    have hK' := (kept_ownersSound env).update hK
    rw [EdgeState.devicesOwned_iff hK', EdgeState.ownership_doDeviceUpdate]
    exact (EdgeState.devicesOwned_iff hK).mp hI
  control := fun {s s'} hI hctl => by
    obtain ⟨k, ctl, stat, tick, msgs, _, _, _, rfl⟩ := hctl
    exact ⟨hI.live, hI.registered⟩
  stat := fun {s c} stat => by cases c <;> exact Iff.rfl

theorem ownersSound_init (mac : List UInt8) (clock : ℕ → ℕ) :
    (EdgeState.init mac clock).OwnersSound := by
  constructor <;> simp [EdgeState.init, EdgeState.ownership]

theorem devicesOwned_init (mac : List UInt8) (clock : ℕ → ℕ) :
    (EdgeState.init mac clock).DevicesOwned := by
  constructor <;> simp [EdgeState.init]

/-- In a run from the initial state every device belongs to a live product
throughout, precisely when no product is deleted that has a device. -/
theorem devicesOwned_throughout_iff (env : Env) (mac : List UInt8) (clock : ℕ → ℕ)
    (es : List Event) :
    Throughout (EdgeState.step env) EdgeState.DevicesOwned (EdgeState.init mac clock) es ↔
      StepsMeet (EdgeState.step env) (fun s e => e.Meets KeepsDevicesOwned s)
        (EdgeState.init mac clock) es :=
  (keptIff_devicesOwned env).throughout_iff (kept_ownersSound env) (ownersSound_init mac clock)
    (devicesOwned_init mac clock) es

/-- A product with one device, deleted. -/
def deleteUsedProductRun : List Command :=
  [.addProduct 5 1, .addDevice (Buf.ofBytes (List.replicate mgtAddrSize 1)) 6 0 0 5,
    .delProduct 5]

/-- The device is still registered, with no product left to point to. -/
theorem devicesOwned_fails_of_used_product :
    ¬ ∀ (env : Env) (mac : List UInt8) (clock : ℕ → ℕ) (es : List Event) (s : EdgeState),
      run (EdgeState.step env) (EdgeState.init mac clock) es = some s → s.DevicesOwned := by
  intro h
  have heval : (run (EdgeState.step Env.plain) (EdgeState.init [] fun _ => 0)
      (deleteUsedProductRun.map Event.command)).map
        (fun s => (s.gDevMap.entries.length, s.gPdtMap.entries.length)) = some (1, 0) := by
    decide +kernel
  obtain ⟨s, hrun, hlengths⟩ := Option.map_eq_some_iff.mp heval
  obtain ⟨hdevs, hpdts⟩ := Prod.mk.inj hlengths
  obtain ⟨entry, hentry⟩ := List.length_eq_one_iff.mp hdevs
  have howned := h Env.plain [] (fun _ => 0) _ s hrun
  obtain ⟨pdt, hderef, _⟩ := howned.live entry.1 entry.2
    (Registry.mem_entries_iff.mp (by simp [hentry]))
  have hmem := Registry.mem_entries_iff.mpr (EdgeState.deref_eq_some_iff.mp hderef).1
  rw [List.length_eq_zero_iff.mp hpdts] at hmem
  cases hmem

end EceLib
