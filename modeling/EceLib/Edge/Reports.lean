import EceLib.Edge.Ageing
import EceLib.Edge.Payload
import EceLib.Edge.Storing

/-!
# No lost updates

In the periodic mode values are reported by the passes of `do_device_update`,
which look for devices whose `update_ts` is later than their `report_ts`.  So an
update is noticed if it moves `update_ts` past the second that was reported
last.  When all updates are noticed, every pass leaves what was last reported
equal to what is stored.
-/

namespace EceLib

open Support

/-- The next pass reports all attributes of the device. -/
def Dev.Pending (dev : Dev) : Prop := dev.updateTs > dev.reportTs

instance (dev : Dev) : Decidable dev.Pending := inferInstanceAs (Decidable (_ > _))

namespace EdgeState

/-- What was last reported for each attribute of a device is what it stores. -/
def Reported (s : EdgeState) (dev : Dev) : Prop :=
  ∀ topic attr, dev.attrMap.get topic = some attr → lastReport dev.oid topic s.out = some attr

def AllReported (s : EdgeState) : Prop :=
  ∀ oid dev, s.gDevMap.get oid = some dev → s.Reported dev

/-- Time does not go back, values are reported by passes only, and every device
was either reported or will be. -/
structure NoLoss (s : EdgeState) : Prop where
  clock : Monotone s.clock
  mode : s.ctl.upMode = .attrPeriodic
  updated : ∀ oid dev, s.gDevMap.get oid = some dev → dev.updateTs ≤ s.now
  noticed : ∀ oid dev, s.gDevMap.get oid = some dev → dev.Pending ∨ s.Reported dev

/-! ## Steps that neither update nor report -/

/-- No attribute is updated and none is reported; a device may be new. -/
structure Quiet (s s' : EdgeState) : Prop where
  clock : ∃ k, s'.clock = (s.advance k).clock
  mode : s'.ctl.upMode = s.ctl.upMode
  last : s'.updateLastSec = s.updateLastSec
  dev : ∀ oid dev', s'.gDevMap.get oid = some dev' →
    (dev'.updateTs = 0 ∧ ∀ topic, dev'.attrMap.get topic = none) ∨
      ∃ dev, s.gDevMap.get oid = some dev ∧ dev'.updateTs = dev.updateTs ∧
        dev'.reportTs = dev.reportTs ∧ dev'.attrMap = dev.attrMap
  out : ∀ oid topic, lastReport oid topic s'.out = lastReport oid topic s.out

theorem Quiet.of_eq {s s' : EdgeState} {k : ℕ} (hclock : s'.clock = (s.advance k).clock)
    (hmode : s'.ctl.upMode = s.ctl.upMode) (hlast : s'.updateLastSec = s.updateLastSec)
    (hdev : s'.gDevMap = s.gDevMap)
    (hout : ∀ oid topic, lastReport oid topic s'.out = lastReport oid topic s.out) :
    Quiet s s' where
  clock := ⟨k, hclock⟩
  mode := hmode
  last := hlast
  dev := fun _ dev' hget => Or.inr ⟨dev', hdev ▸ hget, rfl, rfl, rfl⟩
  out := hout

theorem Quiet.refl (s : EdgeState) : Quiet s s := .of_eq (k := 0) rfl rfl rfl rfl fun _ _ => rfl

theorem Quiet.trans {s s₁ s₂ : EdgeState} (h₁ : Quiet s s₁) (h₂ : Quiet s₁ s₂) : Quiet s s₂ where
  clock := by
    obtain ⟨j, hj⟩ := h₁.clock
    obtain ⟨k, hk⟩ := h₂.clock
    refine ⟨k + j, ?_⟩
    rw [hk, ← advance_advance]
    simp only [advance, hj]
  mode := h₂.mode.trans h₁.mode
  last := h₂.last.trans h₁.last
  dev := fun oid dev' hget => by
    rcases h₂.dev oid dev' hget with hfresh | ⟨dev₁, hget₁, hu₁, hr₁, ha₁⟩
    · exact Or.inl hfresh
    · rcases h₁.dev oid dev₁ hget₁ with ⟨hu, ha⟩ | ⟨dev, hget, hu, hr, ha⟩
      · exact Or.inl ⟨hu₁.trans hu, fun topic => by rw [ha₁, ha]⟩
      · exact Or.inr ⟨dev, hget, hu₁.trans hu, hr₁.trans hr, ha₁.trans ha⟩
  out := fun oid topic => (h₂.out oid topic).trans (h₁.out oid topic)

theorem Quiet.reported {s s' : EdgeState} {oid : Oid} {dev' : Dev} (hquiet : Quiet s s')
    (hget : s'.gDevMap.get oid = some dev')
    (h : ∀ dev, s.gDevMap.get oid = some dev → dev'.updateTs = dev.updateTs →
      dev'.reportTs = dev.reportTs → s.Reported dev) : s'.Reported dev' := by
  intro topic attr hattr
  rcases hquiet.dev oid dev' hget with ⟨_, hnone⟩ | ⟨dev, hdev, hu, hr, ha⟩
  · rw [hnone] at hattr
    cases hattr
  · have hoid : dev'.oid = dev.oid :=
      (Registry.key_of_get hget : dev'.oid = oid).trans (Registry.key_of_get hdev).symm
    rw [hquiet.out, hoid]
    exact h dev hdev hu hr topic attr (ha ▸ hattr)

theorem AllReported.quiet {s s' : EdgeState} (h : s.AllReported) (hquiet : Quiet s s') :
    s'.AllReported :=
  fun oid _ hget => hquiet.reported hget fun dev hdev _ _ => h oid dev hdev

/-- Nothing is lost by a quiet step. -/
theorem NoLoss.quiet {s s' : EdgeState} (h : s.NoLoss) (hquiet : Quiet s s') : s'.NoLoss := by
  obtain ⟨k, hclock⟩ := hquiet.clock
  have hnow : s.now ≤ s'.now := by
    have hle := now_le_advance h.clock k
    rwa [now, now, ← hclock] at hle
  refine ⟨hclock ▸ monotone_advance h.clock k, hquiet.mode.trans h.mode, ?_, ?_⟩
  · intro oid dev' hget
    rcases hquiet.dev oid dev' hget with ⟨hu, _⟩ | ⟨dev, hdev, hu, _, _⟩
    · rw [hu]
      exact Nat.zero_le _
    · rw [hu]
      exact (h.updated oid dev hdev).trans hnow
  · intro oid dev' hget
    by_cases hpending : dev'.Pending
    · exact Or.inl hpending
    · refine Or.inr (hquiet.reported hget fun dev hdev hu hr => ?_)
      refine (h.noticed oid dev hdev).resolve_left ?_
      unfold Dev.Pending at hpending ⊢
      rwa [← hu, ← hr]

theorem ControlStep.quiet {s s' : EdgeState} (h : ControlStep s s') : Quiet s s' := by
  obtain ⟨k, ctl, stat, tick, msgs, hmode, _, hmsgs, rfl⟩ := h
  exact .of_eq (k := k) rfl hmode rfl rfl fun oid topic => lastReport_server oid topic msgs _ hmsgs

theorem quiet_delDevInternal {s s' : EdgeState} {dev : Dev} (h : s.delDevInternal dev = some s') :
    Quiet s s' := by
  unfold delDevInternal at h
  cases hpdt : s.deref dev.pdt with
  | none => simp [hpdt] at h
  | some pdt =>
      simp only [hpdt, Option.some.injEq] at h
      subst h
      refine ⟨⟨0, rfl⟩, rfl, rfl, fun oid dev' hget => ?_, fun _ _ => rfl⟩
      change (s.gDevMap.remove dev.oid).get oid = some dev' at hget
      rw [Registry.get_remove] at hget
      split at hget
      · cases hget
      · exact Or.inr ⟨dev', hget, rfl, rfl, rfl⟩

theorem quiet_addDevInternal (s : EdgeState) (pdt : EdgePdt) (oid : Oid) (module : ℕ) :
    Quiet s (s.addDevInternal pdt oid module).2 := by
  unfold addDevInternal
  split
  · exact .refl s
  · refine ⟨⟨1, rfl⟩, rfl, rfl, fun oid' dev' hget => ?_, fun _ _ => rfl⟩
    simp only [Registry.get_put] at hget
    split at hget
    · cases hget
      exact Or.inl ⟨rfl, fun topic => Registry.get_init 16 (by decide) topic⟩
    · exact Or.inr ⟨dev', hget, rfl, rfl, rfl⟩

theorem quiet_ageScan {now : ℕ} {oids : List Oid} {s s' : EdgeState}
    (h : ageScan now oids s = some s') : Quiet s s' :=
  ageScan_rel Quiet.refl (fun _ _ _ => Quiet.trans)
    (fun _ _ _ _ _ hdel => quiet_delDevInternal hdel) h

theorem quiet_doDeviceAgeing {s s' : EdgeState} (h : s.doDeviceAgeing = some s') :
    Quiet s s' := by
  rw [doDeviceAgeing_eq] at h
  have htick : Quiet s s.tickClock := .of_eq (k := 1) rfl rfl rfl rfl fun _ _ => rfl
  split at h
  · obtain ⟨s₁, hscan, rfl⟩ := Option.map_eq_some_iff.mp h
    refine (htick.trans (quiet_ageScan hscan)).trans ?_
    exact .of_eq (k := 0) rfl rfl rfl rfl fun _ _ => rfl
  · cases h
    exact .of_eq (k := 1) rfl rfl rfl rfl fun _ _ => rfl

end EdgeState

theorem Command.quiet {s s' : EdgeState} {c : Command} (h : (c.exec s).val = some s') :
    EdgeState.Quiet s s' := by
  by_cases hc : c.IsDevice
  · cases c with
    | addDevice addr len linkType module topic =>
        simp only [exec, Traced.val_bind, Option.bind_eq_some_iff, Traced.val_pure] at h
        obtain ⟨⟨dev, s₁⟩, hadd, heq⟩ := h
        cases heq
        rcases EdgeState.addDev_cases hadd with rfl | ⟨pdt, _, _, _, rfl⟩
        · exact .refl _
        · exact EdgeState.quiet_addDevInternal _ _ _ _
    | delDevice addr len linkType =>
        rcases EdgeState.delDev_cases h with rfl | ⟨dev, _, hdel⟩
        · exact .refl _
        · exact EdgeState.quiet_delDevInternal hdel
    | _ => exact hc.elim
  · obtain ⟨attrs, pdts, next, rfl⟩ := exec_frame h hc
    exact .of_eq (k := 0) rfl rfl rfl rfl fun _ _ => rfl

/-! ## Packets -/

/-- The stored bytes of the attributes a device has. -/
def Dev.stored (dev : Dev) (topic : UInt32) : Option AttrMem :=
  (dev.attrMap.get topic).map AttrVal.mem

/-- The token brings what is stored already. -/
def TokenIdle (dev : Dev) (payload : Buf) (token : G1Token) : Prop :=
  token.topic = 0 ∨ token.len = 0 ∨ ∃ attr, dev.attrMap.get token.topic = some attr ∧
    attr.len = token.len ∧ attr.mem.front token.len = payload.bytes token.offset token.len

instance (dev : Dev) (payload : Buf) (token : G1Token) :
    Decidable (TokenIdle dev payload token) :=
  have : Decidable (∃ attr, dev.attrMap.get token.topic = some attr ∧
      attr.len = token.len ∧ attr.mem.front token.len = payload.bytes token.offset token.len) :=
    decidable_of_iff
      (∃ attr ∈ dev.attrMap.get token.topic, attr.len = token.len ∧
        attr.mem.front token.len = payload.bytes token.offset token.len) Iff.rfl
  inferInstanceAs (Decidable (_ ∨ _ ∨ _))

/-- Some token brings another value than the one stored, at a time later than
`reportTs`.  The readings of the clock are taken one by one: `upt_dev_attr` has
one, and `add_dev_attr` another when it sets a value. -/
def TokensMoveTs (g : Registry UInt32 EdgeAttr) (reportTs : ℕ) (payload : Buf) :
    List G1Token → (ℕ → ℕ) → (UInt32 → Option AttrMem) → Prop
  | [], _, _ => False
  | token :: next, clock, stored =>
      let data := payload.bytes token.offset token.len
      let mem := (stored token.topic).getD AttrMem.blank
      let readings := if stored token.topic = none ∧ mem.front token.len ≠ data then 2 else 1
      if token.topic = 0 ∨ token.len = 0 then TokensMoveTs g reportTs payload next clock stored
      else
        (mem.front token.len ≠ data ∧ reportTs < clock (readings - 1)) ∨
          TokensMoveTs g reportTs payload next (fun i => clock (i + readings))
            (Function.update stored token.topic
              (some (mem.update (AttrMem.set (attrType g token.topic)) data)))

instance decidableTokensMoveTs (g : Registry UInt32 EdgeAttr) (reportTs : ℕ) (payload : Buf) :
    ∀ tokens clock stored, Decidable (TokensMoveTs g reportTs payload tokens clock stored)
  | [], _, _ => .isFalse id
  | token :: next, _, _ =>
      have := decidableTokensMoveTs g reportTs payload next
      inferInstanceAs (Decidable (if token.topic = 0 ∨ token.len = 0 then _ else (_ ∧ _) ∨ _))

/-- How an update treats the time: it is set if the value is new, and only then. -/
theorem Upt.updateTs {s : EdgeState} {dev : Dev} {topic : UInt32} {data : List UInt8}
    {attr : AttrVal} {u k : ℕ} (h : Upt s dev topic data attr u k) :
    k = (if dev.stored topic = none ∧
        ((dev.stored topic).getD AttrMem.blank).front data.length ≠ data then 2 else 1) ∧
      attr.mem = ((dev.stored topic).getD AttrMem.blank).update
        (AttrMem.set (attrType s.gAttrMap topic)) data ∧
      (((dev.stored topic).getD AttrMem.blank).front data.length ≠ data → u = s.clock (k - 1)) ∧
      (((dev.stored topic).getD AttrMem.blank).front data.length = data → u = dev.updateTs ∧
        attr = { dev.attrBefore topic with len := data.length }) := by
  have hvals : (dev.stored topic).getD AttrMem.blank = dev.vals topic := by
    unfold Dev.stored Dev.vals Dev.attrBefore
    cases dev.attrMap.get topic <;> rfl
  rw [hvals]
  refine ⟨?_, h.mem_eq, ?_, ?_⟩
  · cases h with
    | same hval => simp [Dev.vals, hval]
    | changed hold hval _ => simp [Dev.stored, hold]
    | first hnone hval _ => simp [Dev.stored, hnone, Dev.vals, hval]
  · intro hnew
    cases h with
    | same hval => exact absurd hval hnew
    | changed => rfl
    | first => rfl
  · intro hsame
    cases h with
    | same => exact ⟨rfl, rfl⟩
    | changed hold hval _ =>
        rw [Dev.vals, Dev.attrBefore, hold, Option.getD_some] at hsame
        exact absurd hsame hval
    | first _ hval _ => exact absurd hsame hval

theorem Dev.stored_put {dev dev' : Dev} {attr : AttrVal}
    (hmap : dev'.attrMap = dev.attrMap.put attr) :
    dev'.stored = Function.update dev.stored attr.topic (some attr.mem) := by
  funext topic
  unfold Dev.stored
  rw [hmap, Registry.get_put]
  change (if topic = attr.topic then _ else _ : Option AttrVal).map AttrVal.mem = _
  by_cases htopic : topic = attr.topic
  · subst htopic
    simp
  · simp [htopic]

/-- The time of an update is between that of the last one and the current. -/
theorem Upt.le {s : EdgeState} {dev : Dev} {topic : UInt32} {data : List UInt8}
    {attr : AttrVal} {u k : ℕ} (h : Upt s dev topic data attr u k) (hclock : Monotone s.clock)
    (hle : dev.updateTs ≤ s.now) : dev.updateTs ≤ u ∧ u ≤ (s.advance k).now := by
  rw [EdgeState.advance_now]
  cases h with
  | same => exact ⟨le_rfl, hle.trans (hclock (by decide))⟩
  | changed => exact ⟨hle, hclock (by decide)⟩
  | first => exact ⟨hle.trans (hclock (by decide)), hclock (by decide)⟩

/-- What is stored already is stored again. -/
theorem Upt.idle {s : EdgeState} {dev : Dev} {payload : Buf} {token : G1Token} {v : AttrVal}
    {u k : ℕ}
    (h : Upt s dev token.topic (payload.bytes token.offset token.len) v u k)
    (htopic : token.topic ≠ 0) (hlen : token.len ≠ 0) (hidle : TokenIdle dev payload token) :
    u = dev.updateTs ∧ dev.attrMap.put v = dev.attrMap := by
  rcases hidle with hzero | hzero | ⟨attr, hget, hattrLen, hattrVal⟩
  · exact absurd hzero htopic
  · exact absurd hzero hlen
  · have hlength : (payload.bytes token.offset token.len).length = token.len :=
      Buf.length_bytes _ _ _
    obtain ⟨_, _, _, hsame⟩ := h.updateTs
    rw [hlength] at hsame
    have hstored : (dev.stored token.topic).getD AttrMem.blank = attr.mem := by
      rw [Dev.stored, hget]
      rfl
    have hbefore : dev.attrBefore token.topic = attr := by
      rw [Dev.attrBefore, hget, Option.getD_some]
    obtain ⟨hu, hv⟩ := hsame (by rw [hstored, hattrVal])
    refine ⟨hu, ?_⟩
    rw [hv, hbefore, ← hattrLen]
    exact Registry.put_self (by rwa [← Registry.key_of_get hget] at hget)

/-- What the token loop does to the time of the last update. -/
theorem tokenLoop_updateTs {payload : Buf} {payloadLen : ℕ} {tokens : List G1Token}
    {s s₁ : EdgeState} {dev dev₁ : Dev}
    (h : (tokenLoop payload payloadLen tokens s dev).val = some (s₁, dev₁))
    (hmode : s.ctl.upMode = .attrPeriodic) (hclock : Monotone s.clock)
    (hle : dev.updateTs ≤ s.now) :
    s₁.out = s.out ∧ dev.updateTs ≤ dev₁.updateTs ∧ dev₁.updateTs ≤ s₁.now ∧
      ((∀ token ∈ tokens, TokenIdle dev payload token) →
        dev₁.updateTs = dev.updateTs ∧ dev₁.attrMap = dev.attrMap) ∧
      (TokensMoveTs s.gAttrMap dev.reportTs payload tokens s.clock dev.stored →
        dev.reportTs < dev₁.updateTs) := by
  induction tokens generalizing s dev with
  | nil =>
      cases h
      exact ⟨rfl, le_rfl, hle, fun _ => ⟨rfl, rfl⟩, fun hmove => hmove.elim⟩
  | cons token next ih =>
      rcases tokenLoop_cons_cases h with
        ⟨hrefused, hnext⟩ | ⟨v, u, k, out, htopic, hdata, _, hu, hreport, hnext⟩
      · obtain ⟨hout, hle₁, hnow₁, hidle, hmove⟩ := ih hnext hmode hclock hle
        refine ⟨hout, hle₁, hnow₁, fun hall => hidle fun t ht => hall t (by simp [ht]), ?_⟩
        intro hmoves
        simp only [TokensMoveTs, hrefused, if_true] at hmoves
        exact hmove hmoves
      · have hperiodic : ¬ s.ctl.upMode = .attr := by
          rw [hmode]
          decide
        have hsent : out = s.out := hreport.resolve_right fun hattr => hperiodic hattr.1
        obtain ⟨hk, hval, hnew, _⟩ := hu.updateTs
        obtain ⟨hleu, hunow⟩ := hu.le hclock hle
        rw [Buf.length_bytes] at hk hnew
        have hargs : ¬ (token.topic = 0 ∨ token.len = 0) := not_or.mpr ⟨htopic, hdata⟩
        obtain ⟨hout, hle₁, hnow₁, hidle, hmove⟩ :=
          ih hnext hmode (EdgeState.monotone_advance hclock k) hunow
        refine ⟨hout.trans hsent, hleu.trans hle₁, hnow₁, ?_, ?_⟩
        · intro hall
          obtain ⟨hts, hput⟩ := hu.idle htopic hdata (hall token (by simp))
          obtain ⟨hts₁, hmap₁⟩ := hidle fun t ht => by
            unfold TokenIdle
            rw [hput]
            exact hall t (by simp [ht])
          exact ⟨hts₁.trans hts, hmap₁.trans hput⟩
        · intro hmoves
          simp only [TokensMoveTs, hargs, if_false, ← hk] at hmoves
          rcases hmoves with ⟨hdiff, hlater⟩ | hrest
          · rw [← hnew hdiff] at hlater
            exact hlater.trans_le hle₁
          · refine hmove ?_
            rw [Dev.stored_put rfl, hu.topic_eq, hval]
            exact hrest

namespace EdgeState

/-! ## Receptions -/

/-- The packet updates no attribute, or the update is noticed by the next pass:
the device is reported anyway, or its `update_ts` moves past its `report_ts`.
Two readings of the clock come before those of the tokens, one for the device
and one when the packet is received. -/
def PacketNoticed (s : EdgeState) (type : UInt32) (pkt : Buf) (size : UInt64) : Prop :=
  ∀ fmt dev, s.Delivered type pkt size fmt →
    s.gDevMap.get (pktOid type pkt size) = some dev →
      dev.Pending ∨ (∀ token ∈ fmt.token, TokenIdle dev (pktPayload pkt size) token) ∨
        TokensMoveTs s.gAttrMap dev.reportTs (pktPayload pkt size) fmt.token
          (fun i => s.clock (i + 2)) dev.stored

instance (s : EdgeState) (type : UInt32) (pkt : Buf) (size : UInt64) :
    Decidable (s.PacketNoticed type pkt size) :=
  decidable_of_iff
    (∀ fmt ∈ s.pktFmt type pkt size, ∀ dev ∈ s.gDevMap.get (pktOid type pkt size),
      s.Delivered type pkt size fmt →
        dev.Pending ∨ (∀ token ∈ fmt.token, TokenIdle dev (pktPayload pkt size) token) ∨
          TokensMoveTs s.gAttrMap dev.reportTs (pktPayload pkt size) fmt.token
            (fun i => s.clock (i + 2)) dev.stored)
    ⟨fun h fmt dev hdelivered hdev => h fmt hdelivered.format dev hdev hdelivered,
      fun h fmt _ dev hdev hdelivered => h fmt dev hdelivered hdev⟩

theorem quiet_freshDev {s : EdgeState} {dev : Dev} {oid : Oid}
    (hget : s.gDevMap.get oid = some dev) : Quiet s (s.freshDev dev).1 := by
  refine ⟨⟨1, rfl⟩, rfl, rfl, fun oid' dev' hget' => ?_, fun _ _ => rfl⟩
  simp only [freshDev, putDev, Registry.get_put] at hget'
  split at hget'
  · rename_i heq
    cases hget'
    refine Or.inr ⟨dev, ?_, rfl, rfl, rfl⟩
    rw [heq]
    rwa [← Registry.key_of_get hget] at hget
  · exact Or.inr ⟨dev', hget', rfl, rfl, rfl⟩

theorem quiet_answer (env : Env) (module : UInt64) (pkt : Buf) (size : UInt64)
    (r : ℕ × EdgeState) : Quiet r.2 (answer env module pkt size r).2 := by
  obtain ⟨msgs, hmsgs, hout⟩ := answer_snd env module pkt size r
  rw [hout]
  exact .of_eq (k := 0) rfl rfl rfl rfl fun oid topic => lastReport_server oid topic msgs _ hmsgs

theorem quiet_checkRuleEngine {env : Env} {s s' : EdgeState} {dev : Dev}
    (h : (s.checkRuleEngine env dev).val = some s') : Quiet s s' := by
  rcases checkRuleEngine_cases h with rfl | ⟨pkt, rfl⟩
  · exact .refl _
  · exact .of_eq (k := 0) rfl rfl rfl rfl fun _ _ => rfl

/-- A message changes nothing, or its token loop is run. -/
theorem parseMsg_updates {env : Env} {s s' : EdgeState} {dev : Dev} {pkt : Buf} {size : UInt64}
    {ret : ℕ} (h : (s.parseMsg env dev pkt size).val = some (ret, s')) :
    s' = s ∨
      ∃ pdt fmt s₁ dev₁, g1MsgSize ≤ size.toNat ∧ s.deref dev.pdt = some pdt ∧
        s.getG1Fmt pdt.topic (msgKey pkt) = some fmt ∧
        (tokenLoop (pkt.drop g1MsgSize) (msgPayloadLen pkt size) fmt.token s dev).val =
          some (s₁, dev₁) ∧
        Quiet (s₁.putDev dev₁) s' := by
  rw [val_parseMsg] at h
  by_cases hsize : g1MsgSize > size.toNat
  · rw [if_pos hsize] at h
    cases h
    exact Or.inl rfl
  · rw [if_neg hsize, Option.bind_eq_some_iff] at h
    obtain ⟨pdt, hpdt, hfound⟩ := h
    cases hfmt : s.getG1Fmt pdt.topic (msgKey pkt) with
    | none =>
        simp only [hfmt] at hfound
        cases hfound
        exact Or.inl rfl
    | some fmt =>
        simp only [hfmt, Option.bind_eq_some_iff, Option.map_eq_some_iff] at hfound
        obtain ⟨⟨s₁, dev₁⟩, hloop, s₂, hrule, heq⟩ := hfound
        cases heq
        exact Or.inr ⟨pdt, fmt, s₁, dev₁, not_lt.mp hsize, hpdt, hfmt, hloop,
          quiet_checkRuleEngine hrule⟩

/-- A reception updates no attribute, or the packet is delivered and what its
token loop makes of the device is written back. -/
theorem edgeRcvPkt_updates {env : Env} {s s' : EdgeState} {type : UInt32} {module : UInt64}
    {pkt : Buf} {size : UInt64} {ret : ℕ}
    (h : (s.edgeRcvPkt env type module pkt size).val = some (ret, s')) :
    Quiet s s' ∨
      ∃ fmt dev s₀ payloadLen s₁ dev₁, s.Delivered type pkt size fmt ∧
        s.gDevMap.get (pktOid type pkt size) = some dev ∧ Quiet s s₀ ∧
        s₀.clock = (s.advance 2).clock ∧ s₀.gAttrMap = s.gAttrMap ∧
        s₀.gDevMap.get (pktOid type pkt size) = some { dev with ts := s.clock 1 } ∧
        (tokenLoop (pktPayload pkt size) payloadLen fmt.token s₀
          { dev with ts := s.clock 1 }).val = some (s₁, dev₁) ∧
        Quiet (s₁.putDev dev₁) s' := by
  rcases edgeRcvPkt_eq_some h with rfl | ⟨hon, hsize, file, ⟨lret, s₂⟩, hparse, hanswer⟩
  · exact Or.inl (.refl _)
  · have hreceived : Quiet s { s.advance 1 with pktFile := file } :=
      .of_eq (k := 1) rfl rfl rfl rfl fun _ _ => rfl
    have hsent : Quiet s₂ s' := by
      have hquiet := quiet_answer env module pkt size (lret, s₂)
      rwa [hanswer] at hquiet
    rw [val_parseG1Pkt] at hparse
    by_cases haccepted : (pktAddress pkt size).1 = 0
    · rw [if_pos haccepted] at hparse
      cases hparse
      exact Or.inl (hreceived.trans hsent)
    · rw [if_neg haccepted] at hparse
      by_cases hgap : (pktAddress pkt size).2.Gap
      · simp [hgap] at hparse
      · rw [if_neg hgap] at hparse
        cases hdev : s.gDevMap.get (pktOid type pkt size) with
        | none =>
            simp only [advance, hdev] at hparse
            cases hparse
            exact Or.inl (hreceived.trans hsent)
        | some dev =>
            simp only [advance, hdev] at hparse
            have hfresh := quiet_freshDev (s := { s.advance 1 with pktFile := file }) hdev
            rcases parseMsg_updates hparse with
              rfl | ⟨pdt, fmt, s₁, dev₁, hheader, hpdt, hfmt, hloop, hrule⟩
            · exact Or.inl ((hreceived.trans hfresh).trans hsent)
            · refine Or.inr ⟨fmt, dev, _, _, s₁, dev₁,
                ⟨hon, hsize, haccepted, hgap, hheader, ?_⟩, rfl, hreceived.trans hfresh, rfl, rfl,
                ?_, hloop, hrule.trans hsent⟩
              · simp only [pktFmt, hdev, Option.bind_some]
                exact Option.bind_eq_some_iff.mpr ⟨pdt, hpdt, hfmt⟩
              · have hoid : dev.oid = pktOid type pkt size := Registry.key_of_get hdev
                rw [← hoid]
                exact Registry.get_put_self _ _

/-- Nothing is lost when the device that was processed is to be reported or
stores what was reported last. -/
theorem NoLoss.putDev {s s₁ : EdgeState} {dev dev₁ : Dev} {oid : Oid} (h : s.NoLoss)
    (hget : s.gDevMap.get oid = some dev) (hsteps : DevSteps (s, dev) (s₁, dev₁))
    (hout : s₁.out = s.out) (hnow : dev₁.updateTs ≤ s₁.now)
    (hnoticed : dev₁.Pending ∨ s.Reported dev₁) : (s₁.putDev dev₁).NoLoss := by
  obtain ⟨⟨k, out, rfl⟩, hoid, _⟩ := hsteps.frame
  have hout' : out ++ s.out = s.out := hout
  have hkey : dev₁.oid = oid := hoid.trans (Registry.key_of_get hget)
  have hother : ∀ {oid' dev'}, (s.gDevMap.put dev₁).get oid' = some dev' →
      (dev' = dev₁ ∨ s.gDevMap.get oid' = some dev') := by
    intro oid' dev' hget'
    rw [Registry.get_put] at hget'
    split at hget'
    · exact Or.inl (Option.some.inj hget').symm
    · exact Or.inr hget'
  refine ⟨monotone_advance h.clock k, h.mode, fun oid' dev' hget' => ?_, fun oid' dev' hget' => ?_⟩
  · rcases hother hget' with rfl | hold
    · exact hnow
    · exact (h.updated oid' dev' hold).trans (now_le_advance h.clock k)
  · change dev'.Pending ∨ ∀ topic attr, dev'.attrMap.get topic = some attr →
      lastReport dev'.oid topic (out ++ s.out) = some attr
    rw [hout']
    rcases hother hget' with rfl | hold
    · exact hnoticed
    · exact h.noticed oid' dev' hold

/-- Nothing is lost by a reception whose updates are noticed. -/
theorem NoLoss.edgeRcvPkt {env : Env} {s s' : EdgeState} {type : UInt32} {module : UInt64}
    {pkt : Buf} {size : UInt64} {ret : ℕ} (h : s.NoLoss) (hnoticed : s.PacketNoticed type pkt size)
    (hrcv : (s.edgeRcvPkt env type module pkt size).val = some (ret, s')) : s'.NoLoss := by
  rcases edgeRcvPkt_updates hrcv with hquiet | ⟨fmt, dev, s₀, payloadLen, s₁, dev₁, hdelivered,
    hdev, hfresh, hclock, hattrs, hdev₀, hloop, hsent⟩
  · exact h.quiet hquiet
  · have h₀ : s₀.NoLoss := h.quiet hfresh
    have hsteps := tokenLoop_devSteps hloop
    obtain ⟨_, hoid, _, hreportTs, _⟩ := hsteps.frame
    obtain ⟨hout, hle, hnow, hidle, hmove⟩ :=
      tokenLoop_updateTs hloop h₀.mode h₀.clock (h₀.updated _ _ hdev₀)
    refine (h₀.putDev hdev₀ hsteps hout hnow ?_).quiet hsent
    rcases hnoticed fmt dev hdelivered hdev with hpending | hall | hmoves
    · refine Or.inl ?_
      unfold Dev.Pending at hpending ⊢
      rw [hreportTs]
      exact hpending.trans_le hle
    · obtain ⟨hts, hmap⟩ := hidle hall
      rcases h₀.noticed _ _ hdev₀ with hpending | hreported
      · refine Or.inl ?_
        unfold Dev.Pending at hpending ⊢
        rwa [hreportTs, hts]
      · refine Or.inr fun topic attr hattr => ?_
        rw [hoid]
        exact hreported topic attr (hmap ▸ hattr)
    · refine Or.inl ?_
      unfold Dev.Pending
      rw [hreportTs]
      refine hmove ?_
      rw [hclock, hattrs]
      exact hmoves

/-! ## Passes -/

/-- A pass that reports was taken between the two states. -/
def PassTaken (s s' : EdgeState) : Prop :=
  s.updateLastSec ≠ 0 ∧ s'.updateLastSec ≠ s.updateLastSec

/-- Nothing is lost by a pass, and after a pass that is taken all is reported. -/
theorem NoLoss.doDeviceUpdate {s : EdgeState} (h : s.NoLoss) :
    s.doDeviceUpdate.NoLoss ∧ (PassTaken s s.doDeviceUpdate → s.doDeviceUpdate.AllReported) := by
  rcases doDeviceUpdate_cases s with ⟨last, hlast, heq⟩ | ⟨gDevMap, out, hstarted, hdue, heq,
    hmap, hpass, hother⟩
  · rw [heq]
    refine ⟨?_, ?_⟩
    · have hsame : ({ s.advance 1 with updateLastSec := last } : EdgeState).NoLoss :=
        ⟨monotone_advance h.clock 1, h.mode,
          fun oid dev hget => (h.updated oid dev hget).trans (now_le_advance h.clock 1), h.noticed⟩
      exact hsame
    · rintro ⟨hstarted, hmoved⟩
      rcases hlast with hzero | hsame
      · exact absurd hzero hstarted
      · exact absurd hsame hmoved
  · rw [heq]
    have hall : ∀ oid dev', gDevMap.get oid = some dev' →
        ∃ dev, s.gDevMap.get oid = some dev ∧ dev' = dev.noteReport := by
      intro oid dev' hget
      rw [hmap, Option.map_eq_some_iff] at hget
      obtain ⟨dev, hdev, rfl⟩ := hget
      exact ⟨dev, hdev, rfl⟩
    have hreported : ({ s.advance 1 with
        gDevMap := gDevMap, out := out, updateLastSec := s.now } : EdgeState).AllReported := by
      intro oid dev' hget topic attr hattr
      obtain ⟨dev, hdev, rfl⟩ := hall oid dev' hget
      rw [Dev.noteReport_attrMap] at hattr
      rw [Dev.noteReport_oid, show dev.oid = oid from Registry.key_of_get hdev]
      by_cases hts : dev.updateTs > dev.reportTs
      · exact hpass oid dev topic attr hdev hts hattr
      · have hlast := (h.noticed oid dev hdev).resolve_left hts topic attr hattr
        rw [show dev.oid = oid from Registry.key_of_get hdev] at hlast
        rw [hother oid dev topic hdev hts, hlast]
    refine ⟨⟨monotone_advance h.clock 1, h.mode, ?_, fun oid dev' hget =>
      Or.inr (hreported oid dev' hget)⟩, fun _ => hreported⟩
    intro oid dev' hget
    obtain ⟨dev, hdev, rfl⟩ := hall oid dev' hget
    rw [Dev.noteReport_updateTs]
    exact (h.updated oid dev hdev).trans (now_le_advance h.clock 1)

/-- The pass is taken when it is due. -/
theorem passTaken_doDeviceUpdate_iff (s : EdgeState) :
    PassTaken s s.doDeviceUpdate ↔
      s.updateLastSec ≠ 0 ∧ s.now - s.updateLastSec > s.ctl.upInterval.toNat := by
  unfold PassTaken EdgeState.doDeviceUpdate
  by_cases hfirst : s.updateLastSec = 0
  · simp [hfirst]
  · by_cases hdue : s.now - s.updateLastSec > s.ctl.upInterval.toNat
    · have hlater : s.now ≠ s.updateLastSec := by omega
      simp [tickClock, hfirst, hdue, hlater]
    · simp [tickClock, hfirst, hdue]

theorem Quiet.not_passTaken {s s' : EdgeState} (h : Quiet s s') : ¬ PassTaken s s' :=
  fun htaken => htaken.2 h.last

theorem updateLastSec_edgeRcvPkt {env : Env} {s s' : EdgeState} {type : UInt32}
    {module : UInt64} {pkt : Buf} {size : UInt64} {ret : ℕ}
    (h : (s.edgeRcvPkt env type module pkt size).val = some (ret, s')) :
    s'.updateLastSec = s.updateLastSec := by
  obtain ⟨k, file, msgs, _, rfl | ⟨dev, s₁, dev₁, _, hsteps, rfl⟩⟩ := edgeRcvPkt_cases h
  · rfl
  · obtain ⟨⟨j, out, rfl⟩, _⟩ := hsteps.frame
    rfl

end EdgeState

/-! ## Runs -/

/-- A packet is noticed; other events do not update attributes. -/
def Event.Noticed (s : EdgeState) : Event → Prop
  | packet type _ pkt size => s.PacketNoticed type pkt size
  | command _ | message .. | ageing | update | periodic => True

instance (s : EdgeState) : ∀ e : Event, Decidable (e.Noticed s)
  | .packet type _ pkt size => inferInstanceAs (Decidable (s.PacketNoticed type pkt size))
  | .command _ | .message .. | .ageing | .update | .periodic => .isTrue trivial

namespace EdgeState

/-- One step: nothing is lost, and after a pass all is reported. -/
theorem NoLoss.step {env : Env} {s s' : EdgeState} {e : Event} (h : s.NoLoss)
    (hnoticed : e.Noticed s) (hstep : s.step env e = some s') :
    s'.NoLoss ∧ (PassTaken s s' → s'.AllReported) := by
  have hsilent : Quiet s s' → s'.NoLoss ∧ (PassTaken s s' → s'.AllReported) := fun hquiet =>
    ⟨h.quiet hquiet, fun htaken => absurd htaken hquiet.not_passTaken⟩
  cases e with
  | command c => exact hsilent (Command.quiet hstep)
  | message msg len =>
      obtain ⟨⟨ret, s₁⟩, hmsg, rfl⟩ := Option.map_eq_some_iff.mp hstep
      rcases mgtRcvMsg_cases hmsg with ⟨_, hctl⟩ | ⟨c, stat, _, hexec⟩
      · exact hsilent hctl.quiet
      · exact hsilent ((controlStep_stat s stat).quiet.trans (Command.quiet hexec))
  | packet type module pkt size =>
      obtain ⟨⟨ret, s₁⟩, hpkt, rfl⟩ := Option.map_eq_some_iff.mp hstep
      exact ⟨h.edgeRcvPkt hnoticed hpkt,
        fun htaken => absurd (updateLastSec_edgeRcvPkt hpkt) htaken.2⟩
  | ageing => exact hsilent (quiet_doDeviceAgeing hstep)
  | update =>
      cases hstep
      exact h.doDeviceUpdate
  | periodic =>
      obtain ⟨s₁, s₂, hctl, hage, hrest⟩ := doMgtPeriodic_cases hstep
      have hbefore : Quiet s s₂ := hctl.quiet.trans (quiet_doDeviceAgeing hage)
      rcases hrest with hctl₂ | hctl₂
      · exact hsilent (hbefore.trans hctl₂.quiet)
      · obtain ⟨hloss, hpass⟩ := (h.quiet hbefore).doDeviceUpdate
        refine ⟨hloss.quiet hctl₂.quiet, fun htaken => (hpass ?_).quiet hctl₂.quiet⟩
        unfold PassTaken at htaken ⊢
        rwa [hbefore.last, ← hctl₂.quiet.last]

/-- A pass is not taken by a reception. -/
theorem PassTaken.noticed {env : Env} {s s' : EdgeState} {e : Event} (h : PassTaken s s')
    (hstep : s.step env e = some s') : e.Noticed s := by
  cases e with
  | packet type module pkt size =>
      obtain ⟨⟨ret, s₁⟩, hpkt, rfl⟩ := Option.map_eq_some_iff.mp hstep
      exact absurd (updateLastSec_edgeRcvPkt hpkt) h.2
  | command | message | ageing | update | periodic => trivial

theorem noLoss_init (mac : List UInt8) {clock : ℕ → ℕ} (h : Monotone clock) :
    (init mac clock).NoLoss :=
  ⟨h, rfl, by simp [init], by simp [init]⟩

end EdgeState

/-- In a run whose packets are all noticed, what is reported last for each
attribute is what is stored, after every pass. -/
theorem allReported_after_pass (env : Env) (mac : List UInt8) {clock : ℕ → ℕ}
    (hclock : Monotone clock) {es : List Event} {e : Event} {s s' : EdgeState}
    (hnoticed : StepsMeet (EdgeState.step env) (fun s e => e.Noticed s)
      (EdgeState.init mac clock) es)
    (hrun : run (EdgeState.step env) (EdgeState.init mac clock) es = some s)
    (hstep : s.step env e = some s') (htaken : EdgeState.PassTaken s s') : s'.AllReported := by
  have hloss : s.NoLoss :=
    run_preserves (fun _ _ _ hI hC hs => (EdgeState.NoLoss.step hI hC hs).1)
      (EdgeState.noLoss_init mac hclock) hnoticed hrun
  exact (hloss.step (htaken.noticed hstep) hstep).2 htaken

/-- A device whose value is updated before and after a pass. -/
def twoUpdatesRun : List Event :=
  shortPayloadRun ++ [.update, .packet 0 0 (Buf.ofBytes (shortPayloadPkt 5)) 19, .update,
    .packet 0 0 (Buf.ofBytes ((shortPayloadPkt 5).set 18 8)) 19]

/-- The time of such a run, with the second update at `second`. -/
def twoUpdatesClock (second : ℕ) (i : ℕ) : ℕ :=
  if i < 2 then 1 else if i < 7 then 20 else if i < 10 then second else 40

theorem monotone_twoUpdatesClock {second : ℕ} (h : 20 ≤ second) (h' : second ≤ 40) :
    Monotone (twoUpdatesClock second) := by
  intro i j hij
  unfold twoUpdatesClock
  split_ifs <;> omega

/-- An update in the second after the pass is reported by the next one. -/
theorem allReported_after_second_update :
    ∃ s, run (EdgeState.step Env.plain) (EdgeState.init [] (twoUpdatesClock 21)) twoUpdatesRun =
        some s ∧
      EdgeState.PassTaken s s.doDeviceUpdate ∧ s.doDeviceUpdate.AllReported := by
  have hnoticed : StepsMeet (EdgeState.step Env.plain) (fun s e => e.Noticed s)
      (EdgeState.init [] (twoUpdatesClock 21)) twoUpdatesRun := by
    decide +kernel
  have heval : (run (EdgeState.step Env.plain) (EdgeState.init [] (twoUpdatesClock 21))
      twoUpdatesRun).map (fun s => decide (s.updateLastSec ≠ 0 ∧
        s.now - s.updateLastSec > s.ctl.upInterval.toNat)) = some true := by
    decide +kernel
  obtain ⟨s, hrun, hdue⟩ := Option.map_eq_some_iff.mp heval
  have htaken : EdgeState.PassTaken s s.doDeviceUpdate :=
    (EdgeState.passTaken_doDeviceUpdate_iff s).mpr (of_decide_eq_true hdue)
  have hclock : Monotone (twoUpdatesClock 21) := monotone_twoUpdatesClock (by decide) (by decide)
  exact ⟨s, hrun, htaken,
    allReported_after_pass Env.plain [] hclock (e := .update) hnoticed hrun rfl htaken⟩

/-- An update in the same second as the pass before it is not reported. -/
theorem allReported_fails_in_same_second :
    ¬ ∀ (env : Env) (mac : List UInt8) (clock : ℕ → ℕ) (es : List Event) (e : Event)
      (s s' : EdgeState), Monotone clock →
      run (EdgeState.step env) (EdgeState.init mac clock) es = some s →
      s.step env e = some s' → EdgeState.PassTaken s s' → s'.AllReported := by
  intro h
  have heval : (run (EdgeState.step Env.plain) (EdgeState.init [] (twoUpdatesClock 20))
      twoUpdatesRun).map (fun s =>
        (decide (s.updateLastSec ≠ 0 ∧ s.now - s.updateLastSec > s.ctl.upInterval.toNat),
          s.doDeviceUpdate.gDevMap.entries.any fun entry =>
            entry.2.attrMap.entries.any fun attr =>
              (lastReport entry.2.oid attr.1 s.doDeviceUpdate.out).map (fun v => v.mem.front 1) ≠
                some (attr.2.mem.front 1))) =
        some (true, true) := by
    decide +kernel
  obtain ⟨s, hrun, heq⟩ := Option.map_eq_some_iff.mp heval
  obtain ⟨hdue, hlost⟩ := Prod.mk.inj heq
  have hall := h Env.plain [] (twoUpdatesClock 20) twoUpdatesRun .update s _
    (monotone_twoUpdatesClock (by decide) (by decide)) hrun rfl
    ((EdgeState.passTaken_doDeviceUpdate_iff s).mpr (of_decide_eq_true hdue))
  obtain ⟨⟨oid, dev⟩, hdev, hattrs⟩ := List.any_eq_true.mp hlost
  obtain ⟨⟨topic, attr⟩, hattr, hne⟩ := List.any_eq_true.mp hattrs
  have hlast := hall oid dev (Registry.mem_entries_iff.mp hdev) topic attr
    (Registry.mem_entries_iff.mp hattr)
  exact of_decide_eq_true hne (by rw [hlast]; rfl)

end EceLib
