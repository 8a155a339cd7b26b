import EceLib.Edge.Processing

/-!
# What a report pass does

`do_device_update` walks the device map and, for each device that was updated
since its last report, reports all of its attributes.
-/

namespace EceLib

/-- A device after a report pass. -/
def Dev.noteReport (dev : Dev) : Dev :=
  if dev.updateTs > dev.reportTs then { dev with reportTs := dev.updateTs } else dev

@[simp] theorem Dev.noteReport_oid (dev : Dev) : dev.noteReport.oid = dev.oid := by
  unfold noteReport
  split <;> rfl

@[simp] theorem Dev.noteReport_pdt (dev : Dev) : dev.noteReport.pdt = dev.pdt := by
  unfold noteReport
  split <;> rfl

@[simp] theorem Dev.noteReport_ts (dev : Dev) : dev.noteReport.ts = dev.ts := by
  unfold noteReport
  split <;> rfl

@[simp] theorem Dev.noteReport_updateTs (dev : Dev) : dev.noteReport.updateTs = dev.updateTs := by
  unfold noteReport
  split <;> rfl

@[simp] theorem Dev.noteReport_attrMap (dev : Dev) : dev.noteReport.attrMap = dev.attrMap := by
  unfold noteReport
  split <;> rfl

/-- The attribute value that was last reported for a device and a topic. -/
def lastReport (oid : Oid) (topic : UInt32) : List Output → Option AttrVal
  | [] => none
  | .report oid' attr _ :: out =>
      if oid' = oid ∧ attr.topic = topic then some attr else lastReport oid topic out
  | _ :: out => lastReport oid topic out

theorem lastReport_server (oid : Oid) (topic : UInt32) (msgs out : List Output)
    (h : ∀ o ∈ msgs, ∃ msg, o = Output.server msg) :
    lastReport oid topic (msgs ++ out) = lastReport oid topic out := by
  induction msgs with
  | nil => rfl
  | cons o msgs ih =>
      obtain ⟨msg, rfl⟩ := h o (by simp)
      exact ih fun o ho => h o (by simp [ho])

namespace EdgeState

/-! ## One device -/

/-- Reporting a list of attributes, which are those registered under their
topics. -/
theorem lastReport_foldl (dev : Dev) (oid : Oid) (topic : UInt32)
    (attrs : List (UInt32 × AttrVal)) (hkey : ∀ entry ∈ attrs, entry.2.topic = entry.1)
    (hnodup : (attrs.map Prod.fst).Nodup) (s : EdgeState) :
    ∃ out, attrs.foldl (fun s attr => s.reportDevAttr dev attr.2) s = { s with out := out } ∧
      (∀ attr, dev.oid = oid → (topic, attr) ∈ attrs → lastReport oid topic out = some attr) ∧
      ((dev.oid ≠ oid ∨ ∀ attr, (topic, attr) ∉ attrs) →
        lastReport oid topic out = lastReport oid topic s.out) := by
  induction attrs generalizing s with
  | nil => exact ⟨s.out, rfl, by simp, fun _ => rfl⟩
  | cons entry attrs ih =>
      obtain ⟨key, v⟩ := entry
      have hv : v.topic = key := hkey (key, v) (by simp)
      rw [List.map_cons, List.nodup_cons] at hnodup
      obtain ⟨out, hfold, hreported, hother⟩ :=
        ih (fun entry hmem => hkey entry (by simp [hmem])) hnodup.2 (s.reportDevAttr dev v)
      have hfirst : lastReport oid topic (s.reportDevAttr dev v).out =
          if dev.oid = oid ∧ v.topic = topic then some v else lastReport oid topic s.out := rfl
      refine ⟨out, hfold, ?_, ?_⟩
      · intro attr hoid hmem
        rcases List.mem_cons.mp hmem with heq | hmem
        · cases heq
          have hnot : ∀ attr', (topic, attr') ∉ attrs := fun attr' hmem' =>
            hnodup.1 (List.mem_map.mpr ⟨_, hmem', rfl⟩)
          rw [hother (Or.inr hnot), hfirst, if_pos ⟨hoid, hv⟩]
        · exact hreported attr hoid hmem
      · intro hnot
        have hhead : ¬ (dev.oid = oid ∧ v.topic = topic) := by
          rintro ⟨hoid, htopic⟩
          rcases hnot with hne | hnone
          · exact hne hoid
          · exact hnone v (by simp [← hv, htopic])
        have hrest : dev.oid ≠ oid ∨ ∀ attr, (topic, attr) ∉ attrs :=
          hnot.imp id fun hnone attr hmem => hnone attr (by simp [hmem])
        rw [hother hrest, hfirst, if_neg hhead]

/-- `hash_update_dev`, on a device as it is registered. -/
theorem hashUpdateDev_spec {s : EdgeState} {oid₀ : Oid} {dev : Dev}
    (hget : s.gDevMap.get oid₀ = some dev) :
    ∃ out, s.hashUpdateDev dev =
        { s with gDevMap := s.gDevMap.put dev.noteReport, out := out } ∧
      (∀ oid topic attr, dev.oid = oid → dev.updateTs > dev.reportTs →
        dev.attrMap.get topic = some attr → lastReport oid topic out = some attr) ∧
      (∀ oid topic, (dev.oid ≠ oid ∨ ¬ dev.updateTs > dev.reportTs ∨
          dev.attrMap.get topic = none) →
        lastReport oid topic out = lastReport oid topic s.out) := by
  have hoid : dev.oid = oid₀ := Registry.key_of_get hget
  unfold hashUpdateDev Dev.noteReport
  by_cases hts : dev.updateTs > dev.reportTs
  · simp only [hts, if_true]
    have hfold := fun oid topic => lastReport_foldl dev oid topic dev.attrMap.entries
      (fun entry hmem => Registry.key_of_get (Registry.mem_entries_iff.mp hmem))
      dev.attrMap.entries_nodup s
    obtain ⟨out, hout, _⟩ := hfold oid₀ 0
    refine ⟨out, by rw [hout]; rfl, ?_, ?_⟩
    · intro oid topic attr heq _ hattr
      obtain ⟨out', hout', hreported, _⟩ := hfold oid topic
      obtain rfl : out = out' := congrArg EdgeState.out (hout.symm.trans hout')
      exact hreported attr heq (Registry.mem_entries_iff.mpr hattr)
    · intro oid topic hnot
      obtain ⟨out', hout', _, hother⟩ := hfold oid topic
      obtain rfl : out = out' := congrArg EdgeState.out (hout.symm.trans hout')
      apply hother
      rcases hnot with hne | hle | hnone
      · exact Or.inl hne
      · simp at hle
      · refine Or.inr fun attr hmem => ?_
        rw [Registry.mem_entries_iff.mp hmem] at hnone
        cases hnone
  · simp only [hts, if_false]
    refine ⟨s.out, ?_, ?_, fun _ _ _ => rfl⟩
    · have hget' : s.gDevMap.get (Keyed.key dev) = some dev := by
        change s.gDevMap.get dev.oid = some dev
        rw [hoid, hget]
      rw [Registry.put_self hget']
    · intro _ _ _ _ hcontra
      exact absurd hcontra id

/-! ## All devices -/

/-- The walk over registered devices: each is noted as reported, and what is
reported is every attribute of each that was updated. -/
theorem foldl_hashUpdateDev (entries : List (Oid × Dev)) {s : EdgeState}
    (hnodup : (entries.map Prod.fst).Nodup)
    (hget : ∀ entry ∈ entries, s.gDevMap.get entry.1 = some entry.2) :
    ∃ gDevMap out,
      entries.foldl (fun s entry => s.hashUpdateDev entry.2) s =
        { s with gDevMap := gDevMap, out := out } ∧
      (∀ oid dev, (oid, dev) ∈ entries → gDevMap.get oid = some dev.noteReport) ∧
      (∀ oid, oid ∉ entries.map Prod.fst → gDevMap.get oid = s.gDevMap.get oid) ∧
      (∀ oid dev topic attr, (oid, dev) ∈ entries → dev.updateTs > dev.reportTs →
        dev.attrMap.get topic = some attr → lastReport oid topic out = some attr) ∧
      (∀ oid topic, (∀ dev, (oid, dev) ∈ entries →
          ¬ dev.updateTs > dev.reportTs ∨ dev.attrMap.get topic = none) →
        lastReport oid topic out = lastReport oid topic s.out) := by
  induction entries generalizing s with
  | nil => exact ⟨s.gDevMap, s.out, rfl, by simp, fun _ _ => rfl, by simp, fun _ _ _ => rfl⟩
  | cons entry entries ih =>
      obtain ⟨oid₀, dev₀⟩ := entry
      rw [List.map_cons, List.nodup_cons] at hnodup
      have hget₀ : s.gDevMap.get oid₀ = some dev₀ := hget (oid₀, dev₀) (by simp)
      have hoid₀ : dev₀.oid = oid₀ := Registry.key_of_get hget₀
      have hkey : Keyed.key dev₀.noteReport = oid₀ := by
        change dev₀.noteReport.oid = oid₀
        rw [Dev.noteReport_oid, hoid₀]
      obtain ⟨out₁, hfirst, hreport₁, hother₁⟩ := hashUpdateDev_spec hget₀
      have hne : ∀ entry ∈ entries, entry.1 ≠ oid₀ := fun entry hmem heq =>
        hnodup.1 (List.mem_map.mpr ⟨entry, hmem, heq⟩)
      have hget₁ : ∀ entry ∈ entries,
          (s.hashUpdateDev dev₀).gDevMap.get entry.1 = some entry.2 := by
        intro entry hmem
        rw [hfirst]
        change (s.gDevMap.put dev₀.noteReport).get entry.1 = some entry.2
        rw [Registry.get_put_of_ne _ _ (by rw [hkey]; exact hne entry hmem)]
        exact hget entry (by simp [hmem])
      obtain ⟨gDevMap, out, hfold, hdone, hrest, hreported, hother⟩ := ih hnodup.2 hget₁
      refine ⟨gDevMap, out, ?_, ?_, ?_, ?_, ?_⟩
      · rw [List.foldl_cons, hfold, hfirst]
      · intro oid dev hmem
        rcases List.mem_cons.mp hmem with heq | hmem
        · obtain ⟨rfl, rfl⟩ := Prod.mk.inj heq
          rw [hrest oid hnodup.1, hfirst]
          change (s.gDevMap.put dev.noteReport).get oid = some dev.noteReport
          rw [← hkey, Registry.get_put_self]
        · exact hdone oid dev hmem
      · intro oid hnot
        simp only [List.map_cons, List.mem_cons, not_or] at hnot
        rw [hrest oid hnot.2, hfirst]
        change (s.gDevMap.put dev₀.noteReport).get oid = _
        rw [Registry.get_put_of_ne _ _ (by rw [hkey]; exact hnot.1)]
      · intro oid dev topic attr hmem hts hattr
        rcases List.mem_cons.mp hmem with heq | hmem
        · obtain ⟨rfl, rfl⟩ := Prod.mk.inj heq
          rw [hother, hfirst]
          · exact hreport₁ oid topic attr hoid₀ hts hattr
          · intro dev' hmem'
            exact absurd rfl (hne (oid, dev') hmem')
        · exact hreported oid dev topic attr hmem hts hattr
      · intro oid topic hnot
        rw [hother oid topic fun dev hmem => hnot dev (by simp [hmem]), hfirst]
        apply hother₁
        by_cases heq : dev₀.oid = oid
        · exact Or.inr (hnot dev₀ (by simp [← heq, hoid₀]))
        · exact Or.inl heq

/-- A pass of `do_device_update` is not taken, or it is and treats all devices. -/
theorem doDeviceUpdate_cases (s : EdgeState) :
    (∃ last, (s.updateLastSec = 0 ∨ last = s.updateLastSec) ∧
        s.doDeviceUpdate = { s.advance 1 with updateLastSec := last }) ∨
      ∃ gDevMap out,
        s.updateLastSec ≠ 0 ∧ s.now - s.updateLastSec > s.ctl.upInterval.toNat ∧
        s.doDeviceUpdate =
          { s.advance 1 with gDevMap := gDevMap, out := out, updateLastSec := s.now } ∧
        (∀ oid, gDevMap.get oid = (s.gDevMap.get oid).map Dev.noteReport) ∧
        (∀ oid dev topic attr, s.gDevMap.get oid = some dev → dev.updateTs > dev.reportTs →
          dev.attrMap.get topic = some attr → lastReport oid topic out = some attr) ∧
        (∀ oid dev topic, s.gDevMap.get oid = some dev → ¬ dev.updateTs > dev.reportTs →
          lastReport oid topic out = lastReport oid topic s.out) := by
  unfold doDeviceUpdate
  by_cases hfirst : s.updateLastSec = 0
  · exact Or.inl ⟨s.now, Or.inl hfirst, by simp only [tickClock, hfirst, if_true]; rfl⟩
  · by_cases hdue : s.now - s.updateLastSec > s.ctl.upInterval.toNat
    · obtain ⟨gDevMap, out, hfold, hdone, hrest, hreported, hother⟩ :=
        foldl_hashUpdateDev (s := s.tickClock) s.gDevMap.entries s.gDevMap.entries_nodup
          fun entry hmem => Registry.mem_entries_iff.mp hmem
      refine Or.inr ⟨gDevMap, out, hfirst, hdue, ?_, ?_, ?_, ?_⟩
      · simp only [tickClock] at hfold ⊢
        simp only [hfirst, hdue, if_true, if_false, hfold]
        rfl
      · intro oid
        cases hget : s.gDevMap.get oid with
        | none =>
            rw [hrest oid, Option.map_none]
            · exact hget
            · intro hmem
              obtain ⟨entry, hentry, rfl⟩ := List.mem_map.mp hmem
              rw [Registry.mem_entries_iff.mp hentry] at hget
              cases hget
        | some dev => exact hdone oid dev (Registry.mem_entries_iff.mpr hget)
      · intro oid dev topic attr hget hts hattr
        exact hreported oid dev topic attr (Registry.mem_entries_iff.mpr hget) hts hattr
      · intro oid dev topic hget hts
        refine hother oid topic fun dev' hmem => ?_
        obtain rfl := Option.some.inj (hget.symm.trans (Registry.mem_entries_iff.mp hmem))
        exact Or.inl hts
    · exact Or.inl ⟨s.updateLastSec, Or.inr rfl, by
        simp only [tickClock, hfirst, hdue, if_false]
        rfl⟩

end EdgeState

end EceLib
