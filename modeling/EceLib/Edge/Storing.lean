import EceLib.Edge.Processing

/-!
# The values of a packet

`upt_dev_attr` compares the bytes of a token with what is stored, copies them if
they differ and prints them.  Whether the token loop comes to its end, and what
it leaves in the values of the device, depends on nothing else.
-/

namespace EceLib

open Support

/-! ## When the values of a packet can be stored -/

/-- `upt_dev_attr` can store `data` in place of a value: it ends inside `val` and
`str`, and if it is new there is a way to print it. -/
def ValueStorable (g : Registry UInt32 EdgeAttr) (topic : UInt32) (mem : AttrMem)
    (data : List UInt8) : Prop :=
  data.length ≤ attrMemSize ∧
    (mem.front data.length ≠ data →
      ∀ attr, g.get topic = some attr → (toStringOperation attr.type).isSome)

/-- The values after `data` was stored for a topic: what is there already is left
as it is. -/
def storeVal (g : Registry UInt32 EdgeAttr) (vals : UInt32 → AttrMem) (topic : UInt32)
    (data : List UInt8) : UInt32 → AttrMem :=
  Function.update vals topic ((vals topic).update (AttrMem.set (attrType g topic)) data)

/-- The values of all tokens can be stored, one after the other; `vals` are those
that are stored in front of the first. -/
def TokensStorable (g : Registry UInt32 EdgeAttr) (payload : Buf) :
    List G1Token → (UInt32 → AttrMem) → Prop
  | [], _ => True
  | token :: next, vals =>
      let data := payload.bytes token.offset token.len
      if token.topic = 0 ∨ token.len = 0 then TokensStorable g payload next vals
      else
        ValueStorable g token.topic (vals token.topic) data ∧
          TokensStorable g payload next (storeVal g vals token.topic data)

/-- The stored values of the attributes of a device. -/
def Dev.vals (dev : Dev) (topic : UInt32) : AttrMem := (dev.attrBefore topic).mem

namespace EdgeState

theorem isSome_setAttrVal (s : EdgeState) (attr : AttrVal) (data : List UInt8) :
    (s.setAttrVal attr data).isSome ↔
      ∀ ea, s.gAttrMap.get attr.topic = some ea → (toStringOperation ea.type).isSome := by
  unfold setAttrVal getAttr
  cases hget : s.gAttrMap.get attr.topic with
  | none => simp [hget]
  | some ea => simp [hget]

/-- The comparison and the change come to their end precisely if the value can be
stored. -/
theorem isSome_compare_set (s : EdgeState) (attr : AttrVal) {data : List UInt8} {α : Type}
    {f : AttrVal → α} {a : α} :
    (do
      Traced.touch ⟨Buffer.attrVal, 0, data.length, maxDeviceAttributeLen⟩
      if attrMemSize < data.length then Traced.stop
      else if attr.mem.front data.length ≠ data then
        let attr ← Traced.lift (s.setAttrVal attr data)
        pure (f attr)
      else pure a : Traced Buffer α).val.isSome ↔
      ValueStorable s.gAttrMap attr.topic attr.mem data := by
  unfold ValueStorable
  rw [← isSome_setAttrVal s attr data, Option.isSome_iff_exists]
  simp only [val_compare_set_eq_some, exists_and_left]
  refine and_congr_right fun _ => ?_
  by_cases hval : attr.mem.front data.length = data
  · simp [hval]
  · simp [hval, Option.isSome_iff_exists]

/-- `upt_dev_attr` has a result precisely when the value can be stored. -/
theorem isSome_uptDevAttr {s : EdgeState} {dev : Dev} {topic : UInt32} {data : List UInt8}
    (htopic : topic ≠ 0) (hdata : data.length ≠ 0) :
    (s.uptDevAttr dev topic data).val.isSome ↔
      ValueStorable s.gAttrMap topic (dev.vals topic) data := by
  have hargs : ¬ (topic = 0 ∨ data.length = 0) := not_or.mpr ⟨htopic, hdata⟩
  unfold uptDevAttr Dev.vals Dev.attrBefore
  rw [if_neg hargs]
  cases hget : dev.attrMap.get topic with
  | none =>
      simp only [hget, addDevAttr, if_neg hargs]
      exact isSome_compare_set s.tickClock
        { len := data.length, mem := AttrMem.blank, topic := topic }
  | some old =>
      have hkey : old.topic = topic := Registry.key_of_get hget
      simp only [hget]
      rw [← hkey]
      exact isSome_compare_set s.tickClock { old with len := data.length }

end EdgeState

/-- What an update stores. -/
theorem Upt.mem_eq {s : EdgeState} {dev : Dev} {topic : UInt32} {data : List UInt8}
    {attr : AttrVal} {u k : ℕ} (h : Upt s dev topic data attr u k) :
    attr.mem = (dev.vals topic).update (AttrMem.set (attrType s.gAttrMap topic)) data := by
  cases h with
  | same hval => exact (Block.update_of_front_eq hval).symm
  | @changed old _ hold hne hset =>
      have hvals : dev.vals topic = old.mem := by rw [Dev.vals, Dev.attrBefore, hold]; rfl
      have hkey : old.topic = topic := Registry.key_of_get hold
      rw [(EdgeState.setAttrVal_eq_some hset).2.2, hvals, Block.update_of_front_ne hne]
      exact congrArg (fun t => old.mem.set (attrType s.gAttrMap t) data) hkey
  | first hnone hne hset =>
      rw [(EdgeState.setAttrVal_eq_some hset).2.2, Dev.vals, Block.update_of_front_ne hne]
      exact congrArg (fun t => (dev.attrBefore topic).mem.set (attrType s.gAttrMap t) data)
        (dev.attrBefore_topic topic)

/-- The values of a device after one of them was stored. -/
theorem Dev.vals_put {dev dev' : Dev} {attr : AttrVal}
    (h : dev'.attrMap = dev.attrMap.put attr) :
    dev'.vals = Function.update dev.vals attr.topic attr.mem := by
  funext topic
  unfold Dev.vals Dev.attrBefore
  rw [h, Registry.get_put]
  change ((if topic = attr.topic then _ else _ : Option AttrVal).getD _).mem = _
  by_cases htopic : topic = attr.topic
  · subst htopic
    simp
  · simp [htopic]

theorem Upt.vals_eq {s : EdgeState} {dev dev' : Dev} {topic : UInt32} {data : List UInt8}
    {attr : AttrVal} {u k : ℕ} (h : Upt s dev topic data attr u k)
    (hmap : dev'.attrMap = dev.attrMap.put attr) :
    dev'.vals = storeVal s.gAttrMap dev.vals topic data := by
  rw [Dev.vals_put hmap, h.mem_eq, h.topic_eq]
  rfl

/-- What is stored after an update. -/
theorem EdgeState.vals_uptDevAttr {s s' : EdgeState} {dev dev' : Dev} {topic : UInt32}
    {data : List UInt8} {attr : Option AttrVal} (htopic : topic ≠ 0) (hdata : data.length ≠ 0)
    (h : (s.uptDevAttr dev topic data).val = some (attr, s', dev')) :
    s'.gAttrMap = s.gAttrMap ∧ dev'.vals = storeVal s.gAttrMap dev.vals topic data := by
  rcases uptDevAttr_cases h with
    ⟨_, _, _, hrefused⟩ | ⟨v, u, k, rfl, hu, _, _, _, rfl, rfl⟩
  · exact absurd hrefused (not_or.mpr ⟨htopic, hdata⟩)
  · exact ⟨rfl, hu.vals_eq rfl⟩

/-- The token loop has a result precisely when all values can be stored. -/
theorem isSome_tokenLoop {payload : Buf} (payloadLen : ℕ) {tokens : List G1Token}
    (s : EdgeState) {dev : Dev} :
    (tokenLoop payload payloadLen tokens s dev).val.isSome ↔
      TokensStorable s.gAttrMap payload tokens dev.vals := by
  induction tokens generalizing s dev with
  | nil => simp [tokenLoop, TokensStorable]
  | cons token next ih =>
      simp only [tokenLoop, TokensStorable, Traced.val_bind, Traced.val_touch, Option.bind_some]
      by_cases hargs : token.topic = 0 ∨ token.len = 0
      · have hskip : (s.uptDevAttr dev token.topic
            (payload.bytes token.offset token.len)).val = some (none, s, dev) := by
          simp [EdgeState.uptDevAttr, hargs]
        rw [if_pos hargs, hskip]
        exact ih s
      · obtain ⟨htopic, hlen⟩ := not_or.mp hargs
        have hdata : (payload.bytes token.offset token.len).length ≠ 0 := by
          rwa [Buf.length_bytes]
        rw [if_neg hargs, ← EdgeState.isSome_uptDevAttr htopic hdata]
        cases hupt : (s.uptDevAttr dev token.topic
            (payload.bytes token.offset token.len)).val with
        | none => simp
        | some r =>
            obtain ⟨attr, s₁, dev₁⟩ := r
            obtain ⟨hattr, hvals⟩ := EdgeState.vals_uptDevAttr htopic hdata hupt
            simp only [Option.bind_some, Option.isSome_some, true_and]
            rw [ih, ← hvals, ← hattr]
            cases attr with
            | none => exact Iff.rfl
            | some v =>
                simp only
                split <;> exact Iff.rfl

/-! ## The device after a packet -/

/-- The device after a value was stored, and how many readings of the clock that
took: there is a second one if the attribute is created and its value is not all
`0xFF`. -/
def Dev.storeToken (dev : Dev) (g : Registry UInt32 EdgeAttr) (clock : ℕ → ℕ) (topic : UInt32)
    (data : List UInt8) : Dev × ℕ :=
  let mem := (dev.vals topic).update (AttrMem.set (attrType g topic)) data
  let stored := { dev with
    ts := clock 0
    attrMap := dev.attrMap.put { len := data.length, mem := mem, topic := topic } }
  if (dev.vals topic).front data.length = data then (stored, 1)
  else if dev.attrMap.get topic = none then ({ stored with updateTs := clock 1 }, 2)
  else ({ stored with updateTs := clock 0 }, 1)

/-- The device after all tokens; `clock` are the readings from the first on. -/
def Dev.store (g : Registry UInt32 EdgeAttr) (payload : Buf) :
    List G1Token → (ℕ → ℕ) → Dev → Dev
  | [], _, dev => dev
  | token :: next, clock, dev =>
      if token.topic = 0 ∨ token.len = 0 then Dev.store g payload next clock dev
      else
        let r := dev.storeToken g clock token.topic (payload.bytes token.offset token.len)
        Dev.store g payload next (fun i => clock (i + r.2)) r.1

/-- The device keeps its product and the time of its last report. -/
theorem Dev.store_frame (g : Registry UInt32 EdgeAttr) (payload : Buf) (tokens : List G1Token)
    (clock : ℕ → ℕ) (dev : Dev) :
    (Dev.store g payload tokens clock dev).pdt = dev.pdt ∧
      (Dev.store g payload tokens clock dev).reportTs = dev.reportTs := by
  induction tokens generalizing clock dev with
  | nil => exact ⟨rfl, rfl⟩
  | cons token next ih =>
      rw [Dev.store]
      split
      · exact ih clock dev
      · have htoken : ∀ topic data, (dev.storeToken g clock topic data).1.pdt = dev.pdt ∧
            (dev.storeToken g clock topic data).1.reportTs = dev.reportTs := fun topic data => by
          unfold Dev.storeToken
          dsimp only
          split
          · exact ⟨rfl, rfl⟩
          · split <;> exact ⟨rfl, rfl⟩
        obtain ⟨hpdt, hts⟩ := htoken token.topic (payload.bytes token.offset token.len)
        exact ⟨(ih _ _).1.trans hpdt, (ih _ _).2.trans hts⟩

theorem Upt.storeToken_eq {s : EdgeState} {dev : Dev} {topic : UInt32} {data : List UInt8}
    {attr : AttrVal} {u k : ℕ} (h : Upt s dev topic data attr u k) :
    dev.storeToken s.gAttrMap s.clock topic data =
      ({ dev with ts := s.now, updateTs := u, attrMap := dev.attrMap.put attr }, k) := by
  have hattr : (⟨data.length,
      (dev.vals topic).update (AttrMem.set (attrType s.gAttrMap topic)) data, topic⟩ : AttrVal) =
        attr := by
    rw [← h.mem_eq, ← h.len_eq, ← h.topic_eq]
  unfold Dev.storeToken
  simp only [hattr]
  cases h with
  | same hval => exact if_pos hval
  | @changed old _ hold hval =>
      have hvals : dev.vals topic = old.mem := by rw [Dev.vals, Dev.attrBefore, hold]; rfl
      rw [hvals, if_neg hval, hold]
      rfl
  | first hnone hval => exact (if_neg hval).trans (if_pos hnone)

/-- This is the device the token loop leaves. -/
theorem tokenLoop_store {payload : Buf} {payloadLen : ℕ} {tokens : List G1Token}
    {s s' : EdgeState} {dev dev' : Dev}
    (h : (tokenLoop payload payloadLen tokens s dev).val = some (s', dev')) :
    dev' = Dev.store s.gAttrMap payload tokens s.clock dev := by
  induction tokens generalizing s dev with
  | nil =>
      cases h
      rfl
  | cons token next ih =>
      rcases tokenLoop_cons_cases h with
        ⟨hrefused, hnext⟩ | ⟨v, u, k, out, htopic, hlen, _, hu, _, hnext⟩
      · rw [Dev.store, if_pos hrefused]
        exact ih hnext
      · rw [Dev.store, if_neg (not_or.mpr ⟨htopic, hlen⟩), hu.storeToken_eq]
        exact ih hnext

/-- The device after the tokens of a packet: one reading of the clock is for the
record of packets, and one for `fresh_dev`. -/
def EdgeState.devAfter (s : EdgeState) (dev : Dev) (fmt : G1Fmt) (payload : Buf) : Dev :=
  Dev.store s.gAttrMap payload fmt.token (fun i => s.clock (i + 2)) { dev with ts := s.clock 1 }

theorem EdgeState.pdt_devAfter (s : EdgeState) (dev : Dev) (fmt : G1Fmt) (payload : Buf) :
    (s.devAfter dev fmt payload).pdt = dev.pdt :=
  (Dev.store_frame _ _ _ _ _).1

theorem EdgeState.reportTs_devAfter (s : EdgeState) (dev : Dev) (fmt : G1Fmt) (payload : Buf) :
    (s.devAfter dev fmt payload).reportTs = dev.reportTs :=
  (Dev.store_frame _ _ _ _ _).2

/-- A packet whose values can all be stored leaves this device to the rule
engine, among the products that were there. -/
theorem EdgeState.tokenLoop_devAfter {s s₁ : EdgeState} {file : List UInt8} {dev dev₁ : Dev}
    {fmt : G1Fmt} {payload : Buf} {payloadLen : ℕ} {r : EdgeState × Dev}
    (hfresh : ({ s.advance 1 with pktFile := file } : EdgeState).freshDev dev = (s₁, dev₁))
    (h : (EceLib.tokenLoop payload payloadLen fmt.token s₁ dev₁).val = some r) :
    r.2 = s.devAfter dev fmt payload ∧ (r.1.putDev r.2).gPdtMap = s.gPdtMap := by
  obtain ⟨rfl, rfl⟩ := Prod.mk.inj hfresh
  refine ⟨tokenLoop_store h, ?_⟩
  obtain ⟨⟨k, out, hr⟩, _⟩ := (tokenLoop_devSteps h).frame
  rw [hr]
  rfl

/-! ## The rule engine -/

/-- With the product of the device alive the rule engine has a result, whether it
sends a packet or not. -/
theorem EdgeState.isSome_sendPktToDevice {s : EdgeState} {dev : Dev} {pdt : EdgePdt}
    (hpdt : s.deref dev.pdt = some pdt) (key : UInt32) (data : List UInt8) :
    (s.sendPktToDevice dev key data).val.isSome := by
  unfold sendPktToDevice
  cases hfmt : s.getG1Fmt pdt.topic key with
  | none => simp [hpdt, hfmt]
  | some fmt => simp [hpdt, hfmt]

theorem EdgeState.isSome_checkRuleEngine (env : Env) {s : EdgeState} {dev : Dev} {pdt : EdgePdt}
    (hpdt : s.deref dev.pdt = some pdt) : (s.checkRuleEngine env dev).val.isSome := by
  unfold checkRuleEngine
  by_cases hts : dev.updateTs ≤ dev.reportTs
  · simp [hts]
  · simp only [hts, if_false, Traced.val_bind, Traced.val_touch, Option.bind_some]
    split
    · simp
    · split
      · obtain ⟨s₁, hs₁⟩ := Option.isSome_iff_exists.mp
          (isSome_sendPktToDevice hpdt 0x10000002 [0xFF, 0xFF, 0xFE])
        simp [hs₁]
      · simp

end EceLib
