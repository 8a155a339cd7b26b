import EceLib.Edge.Owners
import EceLib.Support.AgeList
import Mathlib.Order.Monotone.Basic

/-!
# Ageing

The age list holds the registered devices in the order of their `ts`, although
`upt_dev_attr` sets `ts` without moving the device: it is always the device that
`fresh_dev` has just moved to the end.  So the scan that ends at the first young
device deletes exactly the old ones.
-/

namespace EceLib

open Support

namespace EdgeState

/-- The age list of a state, with the times of the devices. -/
def ageList (s : EdgeState) : AgeList Oid where
  ts := fun oid => (s.gDevMap.get oid).map Dev.ts
  order := s.gDevAgeHead
  now := s.now

/-- Time does not go back, and the age list is in order. -/
structure AgeOk (s : EdgeState) : Prop where
  clock : Monotone s.clock
  ordered : s.ageList.Ordered

theorem monotone_advance {s : EdgeState} (h : Monotone s.clock) (k : ℕ) :
    Monotone (s.advance k).clock := fun _ _ hij => h (Nat.add_le_add_right hij k)

theorem now_le_advance {s : EdgeState} (h : Monotone s.clock) (k : ℕ) :
    s.now ≤ (s.advance k).now := by
  rw [advance_now]
  exact h (Nat.zero_le k)

/-- Time passes, and nothing else happens to the list. -/
theorem AgeOk.wait {s s' : EdgeState} (h : s.AgeOk) {k : ℕ}
    (hclock : s'.clock = (s.advance k).clock) (horder : s'.gDevAgeHead = s.gDevAgeHead)
    (hts : ∀ oid, (s'.gDevMap.get oid).map Dev.ts = (s.gDevMap.get oid).map Dev.ts) :
    s'.AgeOk where
  clock := hclock ▸ monotone_advance h.clock k
  ordered := by
    have hstep := AgeList.Step.wait (a := s.ageList) (now_le_advance h.clock k)
    have hnow : s'.now = (s.advance k).now := congrFun hclock 0
    have heq : s'.ageList = { s.ageList with now := (s.advance k).now } := by
      simp only [ageList, horder, hnow, hts]
    exact heq ▸ hstep.ordered h.ordered

theorem ts_put {r : Registry Oid Dev} {dev : Dev} {oid : Oid} (hkey : dev.oid = oid) :
    (fun i => ((r.put dev).get i).map Dev.ts) =
      Function.update (fun i => (r.get i).map Dev.ts) oid (some dev.ts) := by
  subst hkey
  funext i
  rw [Registry.get_put]
  change Option.map _ (if i = dev.oid then _ else _) = _
  by_cases h : i = dev.oid
  · subst h
    simp
  · simp [h]

/-- A device is added, or used, at a time not before the current one. -/
theorem AgeOk.touch {s s' : EdgeState} (h : s.AgeOk) {dev : Dev} {oid : Oid}
    (hoid : dev.oid = oid) (hclock : Monotone s'.clock)
    (horder : s'.gDevAgeHead = s.gDevAgeHead.erase oid ++ [oid])
    (hdev : s'.gDevMap = s.gDevMap.put dev) (hle : s.now ≤ dev.ts) (hnow : dev.ts ≤ s'.now) :
    s'.AgeOk where
  clock := hclock
  ordered := by
    have htouch := (AgeList.Step.touch (a := s.ageList) oid hle).ordered h.ordered
    have hwait := (AgeList.Step.wait hnow).ordered htouch
    convert hwait using 1
    simp only [ageList, horder, hdev]
    congr 1
    exact ts_put hoid

/-- A device is deleted. -/
theorem AgeOk.delDevInternal {s s' : EdgeState} (h : s.AgeOk) {oid : Oid} {dev : Dev}
    (hget : s.gDevMap.get oid = some dev) (hdel : s.delDevInternal dev = some s') :
    s'.AgeOk ∧ s'.gDevAgeHead = s.gDevAgeHead.erase oid ∧ s'.ctl = s.ctl ∧
      ∀ i, s'.gDevMap.get i = if i = oid then none else s.gDevMap.get i := by
  have hoid : dev.oid = oid := Registry.key_of_get hget
  unfold EdgeState.delDevInternal at hdel
  cases hderef : s.deref dev.pdt with
  | none => simp [hderef] at hdel
  | some pdt =>
      simp only [hderef, hoid, Option.some.injEq] at hdel
      subst hdel
      refine ⟨⟨h.clock, ?_⟩, rfl, rfl, fun i => Registry.get_remove _ _ _⟩
      have hdrop := (AgeList.Step.drop s.ageList oid).ordered h.ordered
      convert hdrop using 1
      simp only [ageList]
      congr 1
      funext i
      rw [Registry.get_remove]
      by_cases hi : i = oid
      · simp [hi]
      · simp [hi]

end EdgeState

/-! ## Processing a packet -/

/-- The steps of the processing set `ts` to the current time at most. -/
theorem DevSteps.ts_le {s s' : EdgeState} {dev dev' : Dev}
    (h : DevSteps (s, dev) (s', dev')) (hclock : Monotone s.clock) (hts : dev.ts ≤ s.now) :
    Monotone s'.clock ∧ dev.ts ≤ dev'.ts ∧ dev'.ts ≤ s'.now := by
  generalize hend : (s', dev') = c at h
  induction h generalizing s' dev' with
  | refl =>
      cases hend
      exact ⟨hclock, le_rfl, hts⟩
  | @tail b c _ hstep ih =>
      obtain ⟨s₁, dev₁⟩ := b
      obtain ⟨hclock₁, hle, hnow⟩ := ih rfl
      cases hstep with
      | @upt _ _ _ _ _ _ k =>
          cases hend
          exact ⟨EdgeState.monotone_advance hclock₁ k, hle.trans hnow,
            EdgeState.now_le_advance hclock₁ k⟩
      | report attr =>
          cases hend
          exact ⟨hclock₁, hle, hnow⟩
      | send module pkt =>
          cases hend
          exact ⟨hclock₁, hle, hnow⟩

namespace EdgeState

theorem AgeOk.edgeRcvPkt {env : Env} {s s' : EdgeState} {type : UInt32} {module : UInt64}
    {pkt : Buf} {size : UInt64} {ret : ℕ} (h : s.AgeOk)
    (hpkt : (s.edgeRcvPkt env type module pkt size).val = some (ret, s')) : s'.AgeOk := by
  obtain ⟨k, file, msgs, _, rfl | ⟨dev, s₁, dev₁, hget, hsteps, rfl⟩⟩ := edgeRcvPkt_cases hpkt
  · exact h.wait (k := k) rfl rfl fun _ => rfl
  · have hdev : dev.oid = pktOid type pkt size := Registry.key_of_get hget
    have hclock : Monotone (s.advance k).clock := monotone_advance h.clock k
    have hfresh : Monotone ((s.advance k).advance 1).clock := monotone_advance hclock 1
    -- `fresh_dev` reads the time, then the clock goes on
    obtain ⟨hclock₁, hle, hnow⟩ := hsteps.ts_le hfresh (now_le_advance hclock 1)
    obtain ⟨⟨j, out, rfl⟩, hoid, _⟩ := hsteps.frame
    have hle' : s.now ≤ dev₁.ts := (now_le_advance h.clock k).trans hle
    refine h.touch (hoid.trans hdev) hclock₁ ?_ ?_ hle' hnow
    · change s.gDevAgeHead.erase dev.oid ++ [dev.oid] = _
      rw [hdev]
    · change (s.gDevMap.put _).put dev₁ = s.gDevMap.put dev₁
      exact Registry.put_put s.gDevMap hoid.symm

/-! ## The scan -/

/-- The devices that are deleted by a scan at time `now`. -/
def IsOld (s : EdgeState) (now : ℕ) (dev : Dev) : Prop :=
  now - dev.ts > s.ctl.devAgeInterval.toNat

instance (s : EdgeState) (now : ℕ) (dev : Dev) : Decidable (s.IsOld now dev) :=
  inferInstanceAs (Decidable (_ > _))

theorem ageScan_spec {now : ℕ} {oids : List Oid} {s s' : EdgeState} (h : s.AgeOk)
    (horder : s.gDevAgeHead = oids) (hscan : ageScan now oids s = some s') :
    s'.AgeOk ∧ ∀ oid, s'.gDevMap.get oid =
      (s.gDevMap.get oid).filter fun dev => ¬ s.IsOld now dev := by
  induction oids generalizing s with
  | nil =>
      rw [← Option.some.inj hscan]
      refine ⟨h, fun oid => ?_⟩
      -- the list is empty, so there is no device
      have hnone : s.gDevMap.get oid = none := by
        have hmem := h.ordered.mem_iff oid
        rw [show s.ageList.order = [] from horder] at hmem
        simpa [ageList] using hmem
      simp [hnone]
  | cons oid₀ next ih =>
      unfold ageScan at hscan
      cases hget : s.gDevMap.get oid₀ with
      | none => simp [hget] at hscan
      | some dev₀ =>
          simp only [hget] at hscan
          have hts₀ : s.ageList.ts oid₀ = some dev₀.ts := by simp [ageList, hget]
          by_cases hold : s.IsOld now dev₀
          · rw [if_pos (show now - dev₀.ts > _ from hold), Option.bind_eq_some_iff] at hscan
            obtain ⟨s₁, hdel, hnext⟩ := hscan
            obtain ⟨h₁, horder₁, hctl₁, hget₁⟩ := h.delDevInternal hget hdel
            have hnext_order : s₁.gDevAgeHead = next := by
              rw [horder₁, horder, List.erase_cons_head]
            obtain ⟨hok, hrest⟩ := ih h₁ hnext_order hnext
            refine ⟨hok, fun oid => ?_⟩
            rw [hrest oid, hget₁ oid]
            have hsame : ∀ dev, s₁.IsOld now dev ↔ s.IsOld now dev := fun dev => by
              unfold IsOld
              rw [hctl₁]
            by_cases hoid : oid = oid₀
            · subst hoid
              simp [hget, hold, Option.filter]
            · simp [hoid, hsame]
          · rw [if_neg (show ¬ now - dev₀.ts > _ from hold)] at hscan
            rw [← Option.some.inj hscan]
            refine ⟨h, fun oid => ?_⟩
            cases hdev : s.gDevMap.get oid with
            | none => rfl
            | some dev =>
                have hts : s.ageList.ts oid = some dev.ts := by simp [ageList, hdev]
                have hle : dev₀.ts ≤ dev.ts := h.ordered.head_le horder hts₀ hts
                have hyoung : ¬ s.IsOld now dev := by
                  unfold IsOld at hold ⊢
                  omega
                simp [hyoung, Option.filter]

/-- With every device in a live product the scan comes to its end. -/
theorem ageScan_isSome (now : ℕ) {oids : List Oid} {s : EdgeState} (h : s.AgeOk)
    (horder : s.gDevAgeHead = oids) (hsound : s.OwnersSound) (hcomplete : s.ownership.Complete) :
    ∃ s', ageScan now oids s = some s' := by
  induction oids generalizing s with
  | nil => exact ⟨s, rfl⟩
  | cons oid₀ next ih =>
      have hmem : (s.ageList.ts oid₀).isSome := (h.ordered.mem_iff oid₀).mp (by
        rw [show s.ageList.order = oid₀ :: next from horder]
        simp)
      obtain ⟨dev₀, hget⟩ : ∃ dev₀, s.gDevMap.get oid₀ = some dev₀ := by
        simpa [ageList, Option.isSome_iff_exists] using hmem
      unfold ageScan
      simp only [hget]
      by_cases hold : now - dev₀.ts > s.ctl.devAgeInterval.toNat
      · rw [if_pos hold]
        obtain ⟨pdt, hderef, _⟩ := ((devicesOwned_iff hsound).mpr hcomplete).live oid₀ dev₀ hget
        obtain ⟨s₁, hdel⟩ : ∃ s₁, s.delDevInternal dev₀ = some s₁ := by
          simp [EdgeState.delDevInternal, hderef]
        obtain ⟨h₁, horder₁, _⟩ := h.delDevInternal hget hdel
        have hsteps := steps_delDevInternal hget hdel
        rw [hdel, Option.bind_some]
        exact ih h₁ (by rw [horder₁, horder, List.erase_cons_head]) (hsteps.sound hsound)
          (hsteps.complete hsound hcomplete)
      · rw [if_neg hold]
        exact ⟨s, rfl⟩

/-- The condition under which `do_device_ageing` scans. -/
def AgeingDue (s : EdgeState) : Prop := s.ageLastSec ≠ 0 ∧ s.now - s.ageLastSec > 60

instance (s : EdgeState) : Decidable s.AgeingDue := inferInstanceAs (Decidable (_ ∧ _))

theorem doDeviceAgeing_eq (s : EdgeState) :
    s.doDeviceAgeing =
      if s.AgeingDue then
        (ageScan s.now s.gDevAgeHead s.tickClock).map fun s' => { s' with ageLastSec := s.now }
      else
        some { s.tickClock with
          ageLastSec := if s.ageLastSec = 0 then s.now else s.ageLastSec } := by
  unfold doDeviceAgeing AgeingDue
  simp only [tickClock]
  by_cases hfirst : s.ageLastSec = 0
  · simp [hfirst]
  · by_cases hdue : s.now - s.ageLastSec > 60
    · simp [hfirst, hdue]
    · simp [hfirst, hdue]

theorem AgeOk.tickClock {s : EdgeState} (h : s.AgeOk) : s.tickClock.AgeOk :=
  h.wait (k := 1) rfl rfl fun _ => rfl

/-- What a call of `do_device_ageing` does to the devices. -/
theorem doDeviceAgeing_spec {s s' : EdgeState} (h : s.AgeOk)
    (hage : s.doDeviceAgeing = some s') :
    s'.AgeOk ∧ ∀ oid, s'.gDevMap.get oid =
      if s.AgeingDue then (s.gDevMap.get oid).filter fun dev => ¬ s.IsOld s.now dev
      else s.gDevMap.get oid := by
  rw [doDeviceAgeing_eq] at hage
  by_cases hdue : s.AgeingDue
  · rw [if_pos hdue] at hage
    obtain ⟨s₁, hscan, rfl⟩ := Option.map_eq_some_iff.mp hage
    obtain ⟨hok, hget⟩ := ageScan_spec h.tickClock rfl hscan
    refine ⟨⟨hok.clock, hok.ordered⟩, fun oid => ?_⟩
    rw [if_pos hdue]
    exact hget oid
  · rw [if_neg hdue] at hage
    cases hage
    refine ⟨⟨h.tickClock.clock, h.tickClock.ordered⟩, fun oid => ?_⟩
    rw [if_neg hdue]
    rfl

end EdgeState

/-! ## Runs -/

theorem kept_ageOk (env : Env) : Kept env EdgeState.AgeOk where
  command := fun {s c s'} h hexec => by
    by_cases hc : c.IsDevice
    · cases c with
      | addDevice addr len linkType module topic =>
          simp only [Command.exec, Traced.val_bind, Option.bind_eq_some_iff,
            Traced.val_pure] at hexec
          obtain ⟨⟨dev, s₁⟩, hadd, heq⟩ := hexec
          cases heq
          rcases EdgeState.addDev_cases hadd with rfl | ⟨pdt, _, _, _, rfl⟩
          · exact h
          · unfold EdgeState.addDevInternal
            rw [Registry.containsKey_eq]
            cases hget : s.gDevMap.get (oidOf linkType (addr.bytes 0 len.toNat)) with
            | some dev => exact h
            | none =>
                have hnot : oidOf linkType (addr.bytes 0 len.toNat) ∉ s.gDevAgeHead := by
                  intro hmem
                  have hsome := (h.ordered.mem_iff _).mp hmem
                  simp [EdgeState.ageList, hget] at hsome
                simp only [Option.isSome_none, Bool.false_eq_true, if_false]
                refine h.touch rfl (EdgeState.monotone_advance h.clock 1) ?_ rfl le_rfl
                  (EdgeState.now_le_advance h.clock 1)
                rw [List.erase_of_not_mem hnot]
      | delDevice addr len linkType =>
          rcases EdgeState.delDev_cases hexec with rfl | ⟨dev, hget, hdel⟩
          · exact h
          · exact (h.delDevInternal hget hdel).1
      | _ => exact hc.elim
    · obtain ⟨attrs, pdts, next, rfl⟩ := Command.exec_frame hexec hc
      exact ⟨h.clock, h.ordered⟩
  packet := fun h hpkt => h.edgeRcvPkt hpkt
  ageing := fun h hage => (EdgeState.doDeviceAgeing_spec h hage).1
  update := fun {s} h => by
    rcases EdgeState.doDeviceUpdate_cases s with ⟨last, _, heq⟩ | ⟨gDevMap, out, _, _, heq, hget, _⟩
    · rw [heq]
      exact h.wait (k := 1) rfl rfl fun _ => rfl
    · rw [heq]
      refine h.wait (k := 1) rfl rfl fun oid => ?_
      simp only [hget, Option.map_map, Function.comp_def, Dev.noteReport_ts]
  control := fun {s s'} h hctl => by
    obtain ⟨k, ctl, stat, tick, msgs, _, _, _, rfl⟩ := hctl
    exact h.wait (k := k) rfl rfl fun _ => rfl

theorem ageOk_init (mac : List UInt8) {clock : ℕ → ℕ} (h : Monotone clock) :
    (EdgeState.init mac clock).AgeOk where
  clock := h
  ordered := by constructor <;> simp [EdgeState.init, EdgeState.ageList]

/-- The age list holds each registered device once, in the order of `ts`, and a
call of `do_device_ageing` that scans deletes exactly the devices that are old. -/
structure EdgeState.AgesExactly (s : EdgeState) : Prop where
  once : ∀ oid, s.gDevAgeHead.count oid = if (s.gDevMap.get oid).isSome then 1 else 0
  sorted : s.gDevAgeHead.Pairwise fun oid₁ oid₂ => ∀ dev₁ dev₂,
    s.gDevMap.get oid₁ = some dev₁ → s.gDevMap.get oid₂ = some dev₂ → dev₁.ts ≤ dev₂.ts
  deletes : ∀ s', s.doDeviceAgeing = some s' → ∀ oid, s'.gDevMap.get oid =
    if s.AgeingDue then (s.gDevMap.get oid).filter fun dev => ¬ s.IsOld s.now dev
    else s.gDevMap.get oid

theorem EdgeState.AgeOk.agesExactly {s : EdgeState} (h : s.AgeOk) : s.AgesExactly where
  once := fun oid => by
    have hmem : oid ∈ s.gDevAgeHead ↔ (s.gDevMap.get oid).isSome := by
      simpa [ageList] using h.ordered.mem_iff oid
    by_cases hsome : (s.gDevMap.get oid).isSome
    · rw [if_pos hsome]
      exact List.count_eq_one_of_mem h.ordered.nodup (hmem.mpr hsome)
    · rw [if_neg hsome]
      exact List.count_eq_zero.mpr fun hin => hsome (hmem.mp hin)
  sorted := by
    refine List.Pairwise.imp ?_ h.ordered.sorted
    intro oid₁ oid₂ hle dev₁ dev₂ h₁ h₂
    exact hle dev₁.ts dev₂.ts (by simp [ageList, h₁]) (by simp [ageList, h₂])
  deletes := fun _ hage => (doDeviceAgeing_spec h hage).2

/-- In every state reached with a clock that does not go back ageing is exact,
and it comes to its end unless a product was deleted before. -/
theorem agesExactly_of_run (env : Env) (mac : List UInt8) {clock : ℕ → ℕ} (hclock : Monotone clock)
    {es : List Event} {s : EdgeState}
    (hrun : run (EdgeState.step env) (EdgeState.init mac clock) es = some s) :
    s.AgesExactly ∧
      ((∀ e ∈ es, ∀ topic, e.command? ≠ some (.delProduct topic)) →
        ∃ s', s.doDeviceAgeing = some s') := by
  have hok : s.AgeOk := (kept_ageOk env).run (ageOk_init mac hclock) hrun
  refine ⟨hok.agesExactly, fun hno => ?_⟩
  have hsound : s.OwnersSound := (kept_ownersSound env).run (ownersSound_init mac clock) hrun
  have hmeets : StepsMeet (EdgeState.step env) (fun s e => e.Meets KeepsDevicesOwned s)
      (EdgeState.init mac clock) es := by
    refine stepsMeet_of_forall (fun e he s c hc => ?_) _
    cases c with
    | delProduct topic => exact absurd hc (hno e he topic)
    | _ => trivial
  have howned : s.DevicesOwned :=
    ((keptIff_devicesOwned env).throughout_iff (kept_ownersSound env) (ownersSound_init mac clock)
      (devicesOwned_init mac clock) es).mpr hmeets es (List.prefix_refl es) s hrun
  rw [EdgeState.doDeviceAgeing_eq]
  by_cases hdue : s.AgeingDue
  · obtain ⟨s', hscan⟩ := EdgeState.ageScan_isSome s.now hok.tickClock rfl hsound
      ((EdgeState.devicesOwned_iff hsound).mp howned)
    have hscan' : EdgeState.ageScan s.now s.gDevAgeHead s.tickClock = some s' := hscan
    rw [if_pos hdue, hscan']
    exact ⟨_, rfl⟩
  · rw [if_neg hdue]
    exact ⟨_, rfl⟩

/-- Of two devices the first is too old for the next scan, which stops at the
second. -/
def ageDeviceRun : List Event :=
  [.command (.addProduct 5 1),
    .command (.addDevice (Buf.ofBytes (List.replicate mgtAddrSize 1)) 6 0 0 5), .ageing,
    .command (.addDevice (Buf.ofBytes (List.replicate mgtAddrSize 2)) 6 0 0 5)]

theorem agesExactly_ageDeviceRun :
    ∃ s, run (EdgeState.step Env.plain) (EdgeState.init [] fun i => 500 * i) ageDeviceRun =
        some s ∧
      s.gDevMap.entries.map (fun e => decide (s.IsOld s.now e.2)) = [true, false] ∧
      s.AgeingDue ∧ s.AgesExactly ∧ ∃ s', s.doDeviceAgeing = some s' := by
  have heval : (run (EdgeState.step Env.plain) (EdgeState.init [] fun i => 500 * i)
      ageDeviceRun).map (fun s =>
        (s.gDevMap.entries.map fun e => decide (s.IsOld s.now e.2), decide s.AgeingDue)) =
        some ([true, false], true) := by
    decide +kernel
  obtain ⟨s, hrun, heq⟩ := Option.map_eq_some_iff.mp heval
  obtain ⟨hold, hdue⟩ := Prod.mk.inj heq
  have hclock : Monotone fun i => 500 * i := fun _ _ hij => Nat.mul_le_mul_left 500 hij
  obtain ⟨hages, hends⟩ := agesExactly_of_run Env.plain [] hclock hrun
  refine ⟨s, hrun, hold, of_decide_eq_true hdue, hages, hends fun e he topic => ?_⟩
  simp only [ageDeviceRun, List.mem_cons, List.not_mem_nil, or_false] at he
  rcases he with rfl | rfl | rfl | rfl <;> simp [Event.command?]

end EceLib
