import EceLib.Edge.Packet
import Mathlib.Logic.Relation

/-!
# What processing a packet does to a device

A packet that reaches a device moves the device to the end of the age list and
then takes steps of three kinds: an attribute is updated, an attribute is
reported, a packet is sent to a device.  The results below reduce a reception
to such a sequence of steps.
-/

namespace EceLib

open Support

namespace EdgeState

/-- The state after `k` readings of the clock. -/
def advance (s : EdgeState) (k : ℕ) : EdgeState := { s with clock := fun i => s.clock (i + k) }

@[simp] theorem advance_now (s : EdgeState) (k : ℕ) : (s.advance k).now = s.clock k := by
  simp [now, advance]

theorem advance_advance (s : EdgeState) (j k : ℕ) :
    (s.advance j).advance k = s.advance (k + j) := by
  simp [advance, Nat.add_assoc]

end EdgeState

/-! ## Attribute updates -/

/-- The memory of a value after `data` was copied to it, and printed if it is a
number. -/
def AttrMem.set (type : Option EdgeAttrType) (mem : AttrMem) (data : List UInt8) : AttrMem :=
  match type with
  | some .num =>
      (mem.write 0 data).write maxDeviceAttributeLen (textBytes (numToString data))
  | _ => mem.write 0 data

namespace EdgeState

theorem setAttrVal_eq_some {s : EdgeState} {attr attr' : AttrVal} {data : List UInt8}
    (h : s.setAttrVal attr data = some attr') :
    attr'.topic = attr.topic ∧ attr'.len = attr.len ∧
      attr'.mem = attr.mem.set (attrType s.gAttrMap attr.topic) data := by
  unfold setAttrVal getAttr at h
  unfold attrType
  cases hget : s.gAttrMap.get attr.topic with
  | none =>
      simp only [hget, Option.some.injEq] at h
      subst h
      exact ⟨rfl, rfl, rfl⟩
  | some ea =>
      simp only [hget, Option.map_eq_some_iff] at h
      obtain ⟨op, hop, rfl⟩ := h
      refine ⟨rfl, rfl, ?_⟩
      cases htype : ea.type with
      | num =>
          rw [htype] at hop
          cases hop
          simp only [Option.map_some, htype, AttrMem.set]
      | str =>
          rw [htype] at hop
          cases hop

/-- Both halves of `upt_dev_attr` end in this way: the value is compared, and set
if it is new. -/
theorem val_compare_set_eq_some (s : EdgeState) (attr : AttrVal) {data : List UInt8} {α : Type}
    {f : AttrVal → α} {a r : α} :
    (do
      Traced.touch ⟨Buffer.attrVal, 0, data.length, maxDeviceAttributeLen⟩
      if attrMemSize < data.length then Traced.stop
      else if attr.mem.front data.length ≠ data then
        let attr ← Traced.lift (s.setAttrVal attr data)
        pure (f attr)
      else pure a : Traced Buffer α).val = some r ↔
      data.length ≤ attrMemSize ∧
        if attr.mem.front data.length = data then r = a
        else ∃ v, s.setAttrVal attr data = some v ∧ r = f v := by
  rw [Traced.val_bind, Traced.val_touch, Option.bind_some]
  by_cases hlen : data.length ≤ attrMemSize
  · rw [if_neg (Nat.not_lt.mpr hlen), and_iff_right hlen]
    by_cases hval : attr.mem.front data.length = data
    · simp [hval, eq_comm]
    · rw [if_pos hval, if_neg hval, Traced.val_bind, Traced.val_lift, Option.bind_eq_some_iff]
      simp only [Traced.val_pure, Option.some.injEq, eq_comm]
  · rw [if_pos (Nat.not_le.mp hlen)]
    simp [hlen]

/-- The comparison is the access that is recorded. -/
theorem each_compare_set_iff {P : Access Buffer → Prop} (s : EdgeState) (attr : AttrVal)
    {data : List UInt8} {α : Type} {f : AttrVal → α} {a : α} :
    (do
      Traced.touch ⟨Buffer.attrVal, 0, data.length, maxDeviceAttributeLen⟩
      if attrMemSize < data.length then Traced.stop
      else if attr.mem.front data.length ≠ data then
        let attr ← Traced.lift (s.setAttrVal attr data)
        pure (f attr)
      else pure a : Traced Buffer α).Each P ↔
      P ⟨.attrVal, 0, data.length, maxDeviceAttributeLen⟩ := by
  rw [Traced.each_touch_bind]
  refine and_iff_left ?_
  split
  · exact Traced.each_stop
  · split
    · exact Traced.each_bind.mpr ⟨Traced.each_lift _, fun _ _ => Traced.each_pure _⟩
    · exact Traced.each_pure _

theorem each_uptDevAttr_iff {P : Access Buffer → Prop} (s : EdgeState) (dev : Dev) {topic : UInt32}
    {data : List UInt8} (htopic : topic ≠ 0) (hdata : data.length ≠ 0) :
    (s.uptDevAttr dev topic data).Each P ↔
      P ⟨.attrVal, 0, data.length, maxDeviceAttributeLen⟩ := by
  have hargs : ¬ (topic = 0 ∨ data.length = 0) := not_or.mpr ⟨htopic, hdata⟩
  unfold uptDevAttr
  rw [if_neg hargs]
  cases hget : dev.attrMap.get topic with
  | none =>
      simp only [hget, addDevAttr, if_neg hargs]
      exact each_compare_set_iff s.tickClock
        { len := data.length, mem := AttrMem.blank, topic := topic }
  | some old =>
      simp only [hget]
      exact each_compare_set_iff s.tickClock { old with len := data.length }

end EdgeState

/-- What a new value of an attribute is compared with. -/
def Dev.attrBefore (dev : Dev) (topic : UInt32) : AttrVal :=
  (dev.attrMap.get topic).getD { len := 0, mem := AttrMem.blank, topic := topic }

/-- The outcome of an update that is not refused: `attr` is what the device
stores now, `u` its `update_ts`, and `k` readings of the clock were taken. -/
inductive Upt (s : EdgeState) (dev : Dev) (topic : UInt32) (data : List UInt8) :
    AttrVal → ℕ → ℕ → Prop where
  | same (h : (dev.attrBefore topic).mem.front data.length = data) :
      Upt s dev topic data { dev.attrBefore topic with len := data.length } dev.updateTs 1
  | changed {old attr : AttrVal} (hold : dev.attrMap.get topic = some old)
      (h : old.mem.front data.length ≠ data)
      (hset : s.setAttrVal { old with len := data.length } data = some attr) :
      Upt s dev topic data attr s.now 1
  | first {attr : AttrVal} (hnone : dev.attrMap.get topic = none)
      (h : (dev.attrBefore topic).mem.front data.length ≠ data)
      (hset : s.setAttrVal { dev.attrBefore topic with len := data.length } data =
        some attr) :
      Upt s dev topic data attr (s.clock 1) 2

theorem Dev.attrBefore_topic (dev : Dev) (topic : UInt32) :
    (dev.attrBefore topic).topic = topic := by
  unfold Dev.attrBefore
  cases h : dev.attrMap.get topic with
  | none => rfl
  | some old => exact Registry.key_of_get h

theorem Upt.topic_eq {s : EdgeState} {dev : Dev} {topic : UInt32} {data : List UInt8}
    {attr : AttrVal} {u k : ℕ} (h : Upt s dev topic data attr u k) : attr.topic = topic := by
  cases h with
  | same => exact dev.attrBefore_topic topic
  | changed hold _ hset =>
      rw [(EdgeState.setAttrVal_eq_some hset).1]
      exact Registry.key_of_get hold
  | first _ _ hset =>
      rw [(EdgeState.setAttrVal_eq_some hset).1]
      exact dev.attrBefore_topic topic

theorem Upt.len_eq {s : EdgeState} {dev : Dev} {topic : UInt32} {data : List UInt8}
    {attr : AttrVal} {u k : ℕ} (h : Upt s dev topic data attr u k) : attr.len = data.length := by
  cases h with
  | same => rfl
  | changed _ _ hset => exact (EdgeState.setAttrVal_eq_some hset).2.1
  | first _ _ hset => exact (EdgeState.setAttrVal_eq_some hset).2.1

namespace EdgeState

/-- What `upt_dev_attr` does: nothing, or one of the three updates. -/
theorem uptDevAttr_cases {s s' : EdgeState} {dev dev' : Dev} {topic : UInt32}
    {data : List UInt8} {attr : Option AttrVal}
    (h : (s.uptDevAttr dev topic data).val = some (attr, s', dev')) :
    (attr = none ∧ s' = s ∧ dev' = dev ∧ (topic = 0 ∨ data.length = 0)) ∨
      ∃ v u k, attr = some v ∧ Upt s dev topic data v u k ∧ topic ≠ 0 ∧ data.length ≠ 0 ∧
        data.length ≤ attrMemSize ∧ s' = s.advance k ∧
        dev' = { dev with ts := s.now, updateTs := u, attrMap := dev.attrMap.put v } := by
  unfold uptDevAttr at h
  by_cases hargs : topic = 0 ∨ data.length = 0
  · rw [if_pos hargs] at h
    cases h
    exact Or.inl ⟨rfl, rfl, rfl, hargs⟩
  · rw [if_neg hargs] at h
    obtain ⟨htopic, hdata⟩ := not_or.mp hargs
    refine Or.inr ?_
    cases hget : dev.attrMap.get topic with
    | none =>
        have hbefore : dev.attrBefore topic =
            { len := 0, mem := AttrMem.blank, topic := topic } := by
          simp [Dev.attrBefore, hget]
        simp only [hget, addDevAttr, if_neg hargs] at h
        obtain ⟨hlen, hset⟩ := (val_compare_set_eq_some s.tickClock
          { len := data.length, mem := AttrMem.blank, topic := topic }).mp h
        split at hset
        · next hval =>
          cases hset
          refine ⟨_, _, _, rfl, ?_, htopic, hdata, hlen, rfl, rfl⟩
          have hsame : Upt s dev topic data
              { dev.attrBefore topic with len := data.length } dev.updateTs 1 :=
            .same (by rw [hbefore]; exact hval)
          rwa [hbefore] at hsame
        · next hval =>
          obtain ⟨v, hset, heq⟩ := hset
          cases heq
          refine ⟨v, _, _, rfl, Upt.first hget ?_ ?_, htopic, hdata, hlen, rfl, rfl⟩
          · rw [hbefore]
            exact hval
          · rw [hbefore]
            exact hset
    | some old =>
        have hbefore : dev.attrBefore topic = old := by simp [Dev.attrBefore, hget]
        simp only [hget] at h
        obtain ⟨hlen, hset⟩ := (val_compare_set_eq_some s.tickClock
          { old with len := data.length }).mp h
        split at hset
        · next hval =>
          cases hset
          refine ⟨_, _, _, rfl, ?_, htopic, hdata, hlen, rfl, rfl⟩
          have hsame : Upt s dev topic data
              { dev.attrBefore topic with len := data.length } dev.updateTs 1 :=
            .same (by rw [hbefore]; exact hval)
          rwa [hbefore] at hsame
        · next hval =>
          obtain ⟨v, hset, heq⟩ := hset
          cases heq
          exact ⟨v, _, _, rfl, Upt.changed hget hval hset, htopic, hdata, hlen, rfl, rfl⟩

end EdgeState

/-! ### The text of a value -/

theorem numToValue_lt (data : List UInt8) : numToValue data < 2 ^ 32 := by
  unfold numToValue
  split
  · next b =>
    have hb := b.toNat_lt
    omega
  · next b₀ b₁ =>
    have hb₀ := b₀.toNat_lt
    have hb₁ := b₁.toNat_lt
    omega
  · next b₀ b₁ b₂ b₃ =>
    have hb₀ := b₀.toNat_lt
    have hb₁ := b₁.toNat_lt
    have hb₂ := b₂.toNat_lt
    have hb₃ := b₃.toNat_lt
    omega
  · decide

/-- The digits of a number are characters of one byte. -/
theorem isDigit_numToString (data : List UInt8) :
    ∀ c ∈ (numToString data).toList, c.isDigit = true := by
  intro c hc
  change c ∈ (numToValue data).repr.toList at hc
  rw [Nat.repr_eq_ofList_toDigits, String.toList_ofList] at hc
  exact Nat.isDigit_of_mem_toDigits (by decide : 0 < 10) (by decide) hc

theorem toNat_of_isDigit {c : Char} (h : c.isDigit = true) : 48 ≤ c.toNat ∧ c.toNat ≤ 57 := by
  simpa [Char.isDigit, UInt32.le_iff_toNat_le] using h

theorem length_numToString_le (data : List UInt8) : (numToString data).toList.length ≤ 10 := by
  change (numToValue data).repr.length ≤ 10
  rw [Nat.length_repr_le_iff (by decide)]
  have hlt := numToValue_lt data
  omega

/-- A text that was printed is the text at `str`. -/
theorem AttrVal.str_of_print {attr : AttrVal} {mem : AttrMem} {text : String}
    (hmem : attr.mem = mem.write maxDeviceAttributeLen (textBytes text))
    (htext : ∀ c ∈ text.toList, c.toNat ≠ 0 ∧ c.toNat < 256)
    (hlen : text.toList.length < maxDeviceAttributeLen) : attr.str = text := by
  have hbyte : ∀ c ∈ text.toList, (UInt8.ofNat c.toNat).toNat = c.toNat := fun c hc => by
    rw [UInt8.toNat_ofNat']
    exact Nat.mod_eq_of_lt (htext c hc).2
  have hfound : textOf (attr.mem.bytes.drop maxDeviceAttributeLen ++ le32Bytes attr.topic) =
      text.toList.map fun c => UInt8.ofNat c.toNat := by
    have hsize : maxDeviceAttributeLen ≤ mem.bytes.length := by
      rw [mem.length_bytes]
      decide
    rw [hmem]
    change textOf ((overwrite mem.bytes _ _).drop maxDeviceAttributeLen ++ _) = _
    rw [drop_overwrite hsize, textBytes]
    apply textOf_overwrite_append
    · intro b hb
      obtain ⟨c, hc, rfl⟩ := List.mem_map.mp hb
      intro hzero
      have hnat := congrArg UInt8.toNat hzero
      rw [hbyte c hc] at hnat
      exact (htext c hc).1 hnat
    · rw [List.length_map, List.length_drop, mem.length_bytes]
      simp only [maxDeviceAttributeLen, attrMemSize] at hlen ⊢
      omega
  rw [AttrVal.str, hfound, List.map_map]
  refine (congrArg String.ofList ?_).trans String.ofList_toList
  conv_rhs => rw [← List.map_id text.toList]
  refine List.map_congr_left fun c hc => ?_
  change Char.ofNat (UInt8.ofNat c.toNat).toNat = c
  rw [hbyte c hc, Char.ofNat_toNat]

/-- The text of a number that was set. -/
theorem AttrVal.str_of_set {attr : AttrVal} {mem : AttrMem} {data : List UInt8}
    (hmem : attr.mem = mem.set (some .num) data) : attr.str = numToString data := by
  refine AttrVal.str_of_print hmem (fun c hc => ?_) ?_
  · have hdigit := toNat_of_isDigit (isDigit_numToString data c hc)
    omega
  · have hlen := length_numToString_le data
    simp only [maxDeviceAttributeLen]
    omega

/-! ## Steps of the processing -/

/-- One step of the processing of a packet, on the state and the device. -/
inductive DevStep : EdgeState × Dev → EdgeState × Dev → Prop where
  | upt {s : EdgeState} {dev : Dev} {topic : UInt32} {data : List UInt8} {attr : AttrVal}
      {u k : ℕ} (htopic : topic ≠ 0) (hdata : data.length ≠ 0)
      (hlen : data.length ≤ attrMemSize) (h : Upt s dev topic data attr u k) :
      DevStep (s, dev)
        (s.advance k, { dev with ts := s.now, updateTs := u, attrMap := dev.attrMap.put attr })
  | report {s : EdgeState} {dev : Dev} (attr : AttrVal) (h : s.ctl.upMode = .attr) :
      DevStep (s, dev) (s.reportDevAttr dev attr, dev)
  | send {s : EdgeState} {dev : Dev} (module : ℕ) (pkt : List UInt8) :
      DevStep (s, dev) ({ s with out := .device module pkt :: s.out }, dev)

/-- Any number of steps. -/
abbrev DevSteps : EdgeState × Dev → EdgeState × Dev → Prop := Relation.ReflTransGen DevStep

/-- The steps only read the clock and send; the device keeps its identity, its
product and the time of its last report. -/
theorem DevSteps.frame {s s' : EdgeState} {dev dev' : Dev}
    (h : DevSteps (s, dev) (s', dev')) :
    (∃ k out, s' = { s.advance k with out := out ++ s.out }) ∧
      dev'.oid = dev.oid ∧ dev'.pdt = dev.pdt ∧ dev'.reportTs = dev.reportTs ∧
      dev'.module = dev.module := by
  generalize hend : (s', dev') = c at h
  induction h generalizing s' dev' with
  | refl =>
      cases hend
      exact ⟨⟨0, [], rfl⟩, rfl, rfl, rfl, rfl⟩
  | @tail b c _ hstep ih =>
      obtain ⟨s₁, dev₁⟩ := b
      obtain ⟨⟨k, out, hs⟩, hoid, hpdt, hts, hmod⟩ := ih rfl
      subst hs
      cases hstep with
      | @upt _ _ _ _ _ _ j =>
          cases hend
          exact ⟨⟨j + k, out, by simp [EdgeState.advance, Nat.add_assoc]⟩, hoid, hpdt, hts, hmod⟩
      | report attr =>
          cases hend
          exact ⟨⟨k, .report dev'.oid attr s.ctl.scenerioId :: out, rfl⟩, hoid, hpdt, hts, hmod⟩
      | send module pkt =>
          cases hend
          exact ⟨⟨k, .device module pkt :: out, rfl⟩, hoid, hpdt, hts, hmod⟩

/-! ## A reception is such a sequence -/

/-- What the loop does with its first token: nothing, or an update, which is
reported at once in one of the modes. -/
theorem tokenLoop_cons_cases {payload : Buf} {payloadLen : ℕ} {token : G1Token}
    {next : List G1Token} {s : EdgeState} {dev : Dev} {r : EdgeState × Dev}
    (h : (tokenLoop payload payloadLen (token :: next) s dev).val = some r) :
    ((token.topic = 0 ∨ token.len = 0) ∧
      (tokenLoop payload payloadLen next s dev).val = some r) ∨
      ∃ v u k out, token.topic ≠ 0 ∧ token.len ≠ 0 ∧ token.len ≤ attrMemSize ∧
        Upt s dev token.topic (payload.bytes token.offset token.len) v u k ∧
        (out = s.out ∨
          s.ctl.upMode = .attr ∧ out = .report dev.oid v s.ctl.scenerioId :: s.out) ∧
        (tokenLoop payload payloadLen next { s.advance k with out := out }
          { dev with ts := s.now, updateTs := u, attrMap := dev.attrMap.put v }).val = some r := by
  simp only [tokenLoop, Traced.val_bind, Traced.val_touch, Option.bind_some,
    Option.bind_eq_some_iff] at h
  obtain ⟨⟨attr, s₁, dev₁⟩, hupt, hnext⟩ := h
  rcases EdgeState.uptDevAttr_cases hupt with
    ⟨rfl, rfl, rfl, hrefused⟩ | ⟨v, u, k, rfl, hu, htopic, hdata, hlen, rfl, rfl⟩
  · rw [Buf.length_bytes] at hrefused
    exact Or.inl ⟨hrefused, hnext⟩
  · rw [Buf.length_bytes] at hdata hlen
    by_cases hmode : s.ctl.upMode = .attr
    · refine Or.inr ⟨v, u, k, _, htopic, hdata, hlen, hu, Or.inr ⟨hmode, rfl⟩, ?_⟩
      simpa only [EdgeState.advance, EdgeState.reportDevAttr, hmode, if_true] using hnext
    · refine Or.inr ⟨v, u, k, _, htopic, hdata, hlen, hu, Or.inl rfl, ?_⟩
      simpa only [EdgeState.advance, hmode, if_false] using hnext

theorem tokenLoop_devSteps {payload : Buf} {payloadLen : ℕ} {tokens : List G1Token}
    {s s' : EdgeState} {dev dev' : Dev}
    (h : (tokenLoop payload payloadLen tokens s dev).val = some (s', dev')) :
    DevSteps (s, dev) (s', dev') := by
  induction tokens generalizing s dev with
  | nil =>
      cases h
      exact .refl
  | cons token next ih =>
      rcases tokenLoop_cons_cases h with
        ⟨_, hnext⟩ | ⟨v, u, k, out, htopic, hdata, hlen, hu, hout, hnext⟩
      · exact ih hnext
      · have hupt := DevStep.upt htopic ((Buf.length_bytes _ _ _).trans_ne hdata)
          ((Buf.length_bytes _ _ _).trans_le hlen) hu
        rcases hout with rfl | ⟨hmode, rfl⟩
        · exact .head hupt (ih hnext)
        · exact .head hupt (.head (DevStep.report v hmode) (ih hnext))

namespace EdgeState

theorem sendPktToDevice_cases {s s' : EdgeState} {dev : Dev} {key : UInt32}
    {data : List UInt8} (h : (s.sendPktToDevice dev key data).val = some s') :
    s' = s ∨ ∃ pkt, s' = { s with out := .device dev.module pkt :: s.out } := by
  unfold sendPktToDevice at h
  cases hpdt : s.deref dev.pdt with
  | none => simp [hpdt] at h
  | some pdt =>
      cases hfmt : s.getG1Fmt pdt.topic key with
      | none =>
          simp only [hpdt, hfmt, Traced.val_pure, Option.some.injEq] at h
          exact Or.inl h.symm
      | some fmt =>
          simp only [hpdt, hfmt, Traced.val_bind, Traced.val_touch, Option.bind_some,
            Traced.val_pure, Option.some.injEq] at h
          exact Or.inr ⟨_, h.symm⟩

/-- The rule engine changes nothing but what has been sent to the device. -/
theorem checkRuleEngine_cases {env : Env} {s s' : EdgeState} {dev : Dev}
    (h : (s.checkRuleEngine env dev).val = some s') :
    s' = s ∨ ∃ pkt, s' = { s with out := .device dev.module pkt :: s.out } := by
  unfold checkRuleEngine at h
  by_cases hts : dev.updateTs ≤ dev.reportTs
  · rw [if_pos hts] at h
    cases h
    exact Or.inl rfl
  · simp only [if_neg hts, Traced.val_bind, Traced.val_touch, Option.bind_some] at h
    cases hrule : env.ruleEval (attrValTexts "," dev ++ "(a00000002 + a00000001 + a00000003)>1")
      with
    | none =>
        simp only [hrule, Traced.val_pure, Option.some.injEq] at h
        exact Or.inl h.symm
    | some passed =>
        cases passed with
        | false =>
            simp only [hrule, Bool.false_eq_true, if_false, Traced.val_bind, Traced.val_touch,
              Option.bind_some, Traced.val_pure, Option.some.injEq] at h
            exact Or.inl h.symm
        | true =>
            simp only [hrule, if_true, Traced.val_bind, Traced.val_touch, Option.bind_some,
              Traced.val_pure, Option.bind_eq_some_iff, Option.some.injEq] at h
            obtain ⟨s₁, hsend, rfl⟩ := h
            exact sendPktToDevice_cases hsend

/-- What `parse_msg` leaves of the device and the state, beside its status. -/
theorem parseMsg_devSteps {env : Env} {s s' : EdgeState} {dev : Dev} {pkt : Buf}
    {size : UInt64} {ret : ℕ} (h : (s.parseMsg env dev pkt size).val = some (ret, s')) :
    s' = s ∨ ∃ s₁ dev₁, DevSteps (s, dev) (s₁, dev₁) ∧ s' = s₁.putDev dev₁ := by
  unfold parseMsg at h
  by_cases hsize : g1MsgSize > size.toNat
  · rw [if_pos hsize] at h
    cases h
    exact Or.inl rfl
  · simp only [if_neg hsize, Traced.val_bind, Traced.val_touch, Option.bind_some] at h
    cases hpdt : s.deref dev.pdt with
    | none => simp [hpdt] at h
    | some pdt =>
        cases hfmt : s.getG1Fmt pdt.topic (msgKey pkt) with
        | none =>
            simp only [hpdt, hfmt, Traced.val_pure, Option.some.injEq] at h
            cases h
            exact Or.inl rfl
        | some fmt =>
            simp only [hpdt, hfmt, Traced.val_bind, Option.bind_eq_some_iff,
              Traced.val_pure] at h
            obtain ⟨⟨s₁, dev₁⟩, hloop, s₂, hrule, heq⟩ := h
            cases heq
            have hsteps := tokenLoop_devSteps hloop
            rcases checkRuleEngine_cases hrule with rfl | ⟨out, rfl⟩
            · exact Or.inr ⟨s₁, dev₁, hsteps, rfl⟩
            · exact Or.inr ⟨_, dev₁, hsteps.tail (DevStep.send dev₁.module out), rfl⟩

end EdgeState

/-! ## The steps of a reception -/

/-- What `parse_g1_pkt` makes of the address field of a packet. -/
def pktAddress (pkt : Buf) (size : UInt64) : ℕ × PktInfo :=
  parseAddressFiled .zero (pkt.mem 1) 2 (size - 2)

/-- The device a packet is from. -/
def pktOid (type : UInt32) (pkt : Buf) (size : UInt64) : Oid :=
  oidOf type ((pkt.drop 2).bytes 0 (pktAddress pkt size).2.addrLen)

/-- The message in a packet whose address field is accepted. -/
def pktMsg (pkt : Buf) (size : UInt64) : Buf := pkt.drop (2 + (pktAddress pkt size).1)

def pktMsgSize (pkt : Buf) (size : UInt64) : UInt64 :=
  size - 2 - UInt64.ofNat (pktAddress pkt size).1

theorem toNat_sub_two {size : UInt64} (h : 2 ≤ size.toNat) : (size - 2).toNat = size.toNat - 2 :=
  UInt64.toNat_sub_of_le _ _ (UInt64.le_iff_toNat_le.mpr h)

/-- The message of an accepted packet is what is left behind the address. -/
theorem toNat_pktMsgSize {pkt : Buf} {size : UInt64}
    (h : 2 + (pktAddress pkt size).1 ≤ size.toNat) :
    (pktMsgSize pkt size).toNat = size.toNat - (2 + (pktAddress pkt size).1) := by
  have hsize := size.toNat_lt
  have hl : (UInt64.ofNat (pktAddress pkt size).1).toNat = (pktAddress pkt size).1 := by
    rw [UInt64.toNat_ofNat']
    omega
  have htwo : (size - 2).toNat = size.toNat - 2 := toNat_sub_two (by omega)
  have hle : UInt64.ofNat (pktAddress pkt size).1 ≤ size - 2 := by
    rw [UInt64.le_iff_toNat_le, hl, htwo]
    omega
  rw [pktMsgSize, UInt64.toNat_sub_of_le _ _ hle, hl, htwo]
  omega

/-- The message header of an accepted packet is in the packet. -/
def HeaderComplete (pkt : Buf) (size : UInt64) : Prop :=
  2 + (pktAddress pkt size).1 + g1MsgSize ≤ size.toNat

instance (pkt : Buf) (size : UInt64) : Decidable (HeaderComplete pkt size) :=
  inferInstanceAs (Decidable (_ ≤ _))

/-- An address field whose third part has no second part in front of it. -/
def PktInfo.Gap (info : PktInfo) : Prop := info.h3Len ≠ 0 ∧ info.h2Len = 0

instance (info : PktInfo) : Decidable info.Gap := inferInstanceAs (Decidable (_ ∧ _))

/-- The length an accepted address field has, and where its parts are. -/
theorem parseAddressFiled_accepted {addrCtrl : UInt8} {addr : ℕ} {size : UInt64}
    {l : ℕ} {info : PktInfo}
    (h : parseAddressFiled .zero addrCtrl addr size = (l, info)) (hl : l ≠ 0) :
    l = info.addrLen ∧ l < size.toNat ∧ info.h1 = some addr ∧
      (info.h2Len ≠ 0 → info.h2 = some (addr + info.h1Len)) ∧
      (info.h3Len ≠ 0 →
        info.h3 = if info.h2Len = 0 then none else some (addr + info.h1Len + info.h2Len)) := by
  unfold parseAddressFiled at h
  simp only at h
  split at h
  · simp only [Prod.mk.injEq] at h
    exact absurd h.1.symm hl
  · split at h
    · simp only [Prod.mk.injEq] at h
      exact absurd h.1.symm hl
    · generalize h1LenTbl.getD _ 0 = a at h
      generalize h2LenTbl.getD _ 0 = b at h
      generalize h3LenTbl.getD _ 0 = c at h
      simp only [PktInfo.zero, Prod.mk.injEq] at h
      obtain ⟨hlen, rfl⟩ := h
      have hfits : ∀ n, (if size.toNat > n then n else 0) = l → l = n ∧ l < size.toNat := by
        intro n hn
        split at hn
        · omega
        · exact absurd hn.symm hl
      obtain ⟨hl', hlt⟩ := hfits _ hlen
      refine ⟨hl', hlt, ?_, ?_, ?_⟩
      · by_cases hb : b = 0 <;> by_cases hc : c = 0 <;> simp [hb, hc]
      · by_cases hb : b = 0 <;> by_cases hc : c = 0 <;> simp [hb, hc]
      · by_cases hb : b = 0 <;> by_cases hc : c = 0 <;> simp [hb, hc]

/-- The address field of an accepted packet. -/
theorem pktAddress_accepted {pkt : Buf} {size : UInt64} (h : (pktAddress pkt size).1 ≠ 0) :
    (pktAddress pkt size).1 = (pktAddress pkt size).2.addrLen ∧
      (pktAddress pkt size).1 < (size - 2).toNat ∧ (pktAddress pkt size).2.h1 = some 2 := by
  have heq : parseAddressFiled .zero (pkt.mem 1) 2 (size - 2) =
      ((pktAddress pkt size).1, (pktAddress pkt size).2) := rfl
  obtain ⟨hl, hlt, hh1, _⟩ := parseAddressFiled_accepted heq h
  exact ⟨hl, hlt, hh1⟩

theorem val_logAddr (pkt : Buf) (h : Option ℕ) (len : ℕ) :
    (EdgeState.logAddr pkt h len).val = h.map fun _ => () := by
  cases h <;> simp [EdgeState.logAddr]

namespace EdgeState

/-- Only a third level without a second one stops the prints. -/
theorem val_logLevels {pkt : Buf} {info : PktInfo} {addr : ℕ} (h1 : info.h1 = some addr)
    (h2 : info.h2Len ≠ 0 → info.h2 = some (addr + info.h1Len))
    (h3 : info.h3Len ≠ 0 →
      info.h3 = if info.h2Len = 0 then none else some (addr + info.h1Len + info.h2Len)) :
    (logLevels pkt info).val = if info.Gap then none else some () := by
  unfold logLevels PktInfo.Gap
  by_cases hb : info.h2Len = 0
  · by_cases hc : info.h3Len = 0
    · simp [hb, hc, h1, val_logAddr]
    · simp [hb, hc, h1, h3 hc, val_logAddr]
  · by_cases hc : info.h3Len = 0
    · simp [hb, hc, h1, h2 hb, val_logAddr]
    · simp [hb, hc, h1, h2 hb, h3 hc, val_logAddr]

theorem val_getDev (s : EdgeState) (type : UInt32) (addr : Buf) (addrLen : ℕ) :
    (s.getDev type addr addrLen).val =
      some (s.gDevMap.get (oidOf type (addr.bytes 0 addrLen))) := by
  simp [getDev, getDevOid]

/-- `parse_g1_pkt` up to the lookup of the device. -/
theorem val_parseG1Pkt (env : Env) (s : EdgeState) (type : UInt32) (pkt : Buf)
    (size : UInt64) :
    (s.parseG1Pkt env type pkt size).val =
      if (pktAddress pkt size).1 = 0 then some (G1ProcessStatus.errPkt.code, s)
      else if (pktAddress pkt size).2.Gap then none
      else
        match s.gDevMap.get (pktOid type pkt size) with
        | none => some (G1ProcessStatus.noDevice.code, s)
        | some dev =>
            ((s.freshDev dev).1.parseMsg env (s.freshDev dev).2 (pktMsg pkt size)
              (pktMsgSize pkt size)).val := by
  unfold pktOid pktMsg pktMsgSize pktAddress
  cases hparse : parseAddressFiled .zero (pkt.mem 1) 2 (size - 2) with
  | mk l info =>
      simp only [parseG1Pkt, hparse, Traced.val_bind, Traced.val_touch, Option.bind_some]
      by_cases hl : l = 0
      · simp only [hl, if_true, Traced.val_pure]
      · obtain ⟨_, _, h1, h2, h3⟩ := parseAddressFiled_accepted hparse hl
        simp only [hl, if_false, Traced.val_bind, val_logLevels h1 h2 h3, val_getDev]
        by_cases hgap : info.Gap
        · simp only [hgap, if_true, Option.bind_none]
        · simp only [hgap, if_false, Option.bind_some]
          cases s.gDevMap.get (oidOf type ((pkt.drop 2).bytes 0 info.addrLen)) <;> rfl

theorem freshDev_putDev (s : EdgeState) (dev : Dev) :
    (s.freshDev dev).1.putDev (s.freshDev dev).2 = (s.freshDev dev).1 := by
  simp only [freshDev, putDev, Registry.put_put]

/-- What `parse_g1_pkt` does to the state. -/
theorem parseG1Pkt_cases {env : Env} {s s' : EdgeState} {type : UInt32} {pkt : Buf}
    {size : UInt64} {ret : ℕ} (h : (s.parseG1Pkt env type pkt size).val = some (ret, s')) :
    s' = s ∨
      ∃ dev s₁ dev₁, (pktAddress pkt size).1 ≠ 0 ∧
        s.gDevMap.get (pktOid type pkt size) = some dev ∧
        DevSteps (s.freshDev dev) (s₁, dev₁) ∧ s' = s₁.putDev dev₁ := by
  rw [val_parseG1Pkt] at h
  by_cases hl : (pktAddress pkt size).1 = 0
  · rw [if_pos hl] at h
    cases h
    exact Or.inl rfl
  · rw [if_neg hl] at h
    by_cases hgap : (pktAddress pkt size).2.Gap
    · simp [hgap] at h
    · rw [if_neg hgap] at h
      cases hdev : s.gDevMap.get (pktOid type pkt size) with
      | none =>
          simp only [hdev, Option.some.injEq] at h
          cases h
          exact Or.inl rfl
      | some dev =>
          simp only [hdev] at h
          rcases parseMsg_devSteps h with rfl | ⟨s₁, dev₁, hsteps, rfl⟩
          · exact Or.inr ⟨dev, _, _, hl, rfl, .refl, (freshDev_putDev s dev).symm⟩
          · exact Or.inr ⟨dev, s₁, dev₁, hl, rfl, hsteps, rfl⟩

/-! ## The result of a reception -/

/-- The state in which a received packet is parsed: it has been recorded, if it
has to be, and the time was read. -/
def received (env : Env) (s : EdgeState) (type : UInt32) (module : UInt64) (pkt : Buf)
    (size : UInt64) : EdgeState :=
  (if s.ctl.pktRecord = edgeFuncOn then s.recordG1Pkt env type module pkt size else s).tickClock

theorem received_eq (env : Env) (s : EdgeState) (type : UInt32) (module : UInt64) (pkt : Buf)
    (size : UInt64) :
    ∃ file, s.received env type module pkt size = { s.advance 1 with pktFile := file } := by
  unfold received
  split
  · exact ⟨_, rfl⟩
  · exact ⟨_, rfl⟩

theorem edgeDpRcv_eq (env : Env) (s : EdgeState) (type : UInt32) (module : UInt64) (pkt : Buf)
    (size : UInt64) :
    s.edgeDpRcv env type module pkt size = (do
      let (lret, s) ← (s.received env type module pkt size).parseG1Pkt env type pkt size
      let s ←
        if lret ≠ 0 then
          s.mgtSendPkt env (UInt32.ofNat lret) module.toUInt32 pkt size.toUInt32
        else pure s
      pure (lret, s)) := rfl

/-- What `edge_rcv_pkt` makes of the result of `parse_g1_pkt`. -/
def answer (env : Env) (module : UInt64) (pkt : Buf) (size : UInt64) (r : ℕ × EdgeState) :
    ℕ × EdgeState :=
  if r.1 ≠ 0 then
    (r.1, r.2.mgtSendMsg (pktReport env (UInt32.ofNat r.1) module.toUInt32 pkt size.toUInt32))
  else if r.2.ctl.upMode = .pkt then (G1ProcessStatus.rawPkt.code, r.2)
  else r

theorem val_edgeRcvPkt (env : Env) {s : EdgeState} (type : UInt32) (module : UInt64) (pkt : Buf)
    {size : UInt64} (hon : s.ctl.function = edgeFuncOn) (hsize : size ≠ 0) :
    (s.edgeRcvPkt env type module pkt size).val =
      ((s.received env type module pkt size).parseG1Pkt env type pkt size).val.map
        (answer env module pkt size) := by
  simp only [edgeRcvPkt, edgeDpRcv_eq, hon, hsize, ne_eq, not_true_eq_false, if_false,
    Traced.val_bind]
  cases ((s.received env type module pkt size).parseG1Pkt env type pkt size).val with
  | none => rfl
  | some r =>
      obtain ⟨lret, s₁⟩ := r
      by_cases hret : lret = 0
      · by_cases hmode : s₁.ctl.upMode = .pkt
        · simp [answer, hret, hmode]
        · simp [answer, hret, hmode]
      · simp [answer, hret, val_mgtSendPkt]

/-- A reception does nothing, or the packet is recorded, parsed and answered. -/
theorem edgeRcvPkt_eq_some {env : Env} {s s' : EdgeState} {type : UInt32} {module : UInt64}
    {pkt : Buf} {size : UInt64} {ret : ℕ}
    (h : (s.edgeRcvPkt env type module pkt size).val = some (ret, s')) :
    s' = s ∨
      s.ctl.function = edgeFuncOn ∧ size ≠ 0 ∧
        ∃ file r, (({ s.advance 1 with pktFile := file } : EdgeState).parseG1Pkt env type pkt
            size).val = some r ∧
          answer env module pkt size r = (ret, s') := by
  by_cases hon : s.ctl.function = edgeFuncOn
  · by_cases hsize : size = 0
    · simp only [edgeRcvPkt, hon, hsize, ne_eq, not_true_eq_false, if_true, if_false,
        Traced.val_pure, Option.some.injEq, Prod.mk.injEq] at h
      exact Or.inl h.2.symm
    · obtain ⟨file, hfile⟩ := received_eq env s type module pkt size
      rw [val_edgeRcvPkt env type module pkt hon hsize, hfile, Option.map_eq_some_iff] at h
      exact Or.inr ⟨hon, hsize, file, h⟩
  · simp only [edgeRcvPkt, hon, ne_eq, not_false_eq_true, if_true, Traced.val_pure,
      Option.some.injEq, Prod.mk.injEq] at h
    exact Or.inl h.2.symm

theorem answer_snd (env : Env) (module : UInt64) (pkt : Buf) (size : UInt64)
    (r : ℕ × EdgeState) :
    ∃ msgs, (∀ o ∈ msgs, ∃ msg, o = Output.server msg) ∧
      (answer env module pkt size r).2 = { r.2 with out := msgs ++ r.2.out } := by
  unfold answer
  by_cases hret : r.1 = 0
  · refine ⟨[], by simp, ?_⟩
    rw [if_neg (not_not.mpr hret)]
    split
    · rfl
    · rfl
  · rw [if_pos hret]
    exact ⟨[_], by simp, rfl⟩

/-- A reception leaves the registries as they are, or finds a device, moves it
to the end of the age list and processes the packet. -/
theorem edgeRcvPkt_cases {env : Env} {s s' : EdgeState} {type : UInt32} {module : UInt64}
    {pkt : Buf} {size : UInt64} {ret : ℕ}
    (h : (s.edgeRcvPkt env type module pkt size).val = some (ret, s')) :
    ∃ k file msgs, (∀ o ∈ msgs, ∃ msg, o = Output.server msg) ∧
      (s' = { s.advance k with pktFile := file, out := msgs ++ s.out } ∨
        ∃ dev s₁ dev₁, s.gDevMap.get (pktOid type pkt size) = some dev ∧
          DevSteps (({ s.advance k with pktFile := file }).freshDev dev) (s₁, dev₁) ∧
          s' = { s₁.putDev dev₁ with out := msgs ++ s₁.out }) := by
  rcases edgeRcvPkt_eq_some h with rfl | ⟨_, _, file, r, hparse, hanswer⟩
  · exact ⟨0, s'.pktFile, [], by simp, Or.inl rfl⟩
  · obtain ⟨msgs, hmsgs, hout⟩ := answer_snd env module pkt size r
    rw [hanswer] at hout
    refine ⟨1, file, msgs, hmsgs, ?_⟩
    rcases parseG1Pkt_cases hparse with hs | ⟨dev, s₁, dev₁, _, hdev, hsteps, hs⟩
    · rw [hs] at hout
      exact Or.inl hout
    · rw [hs] at hout
      exact Or.inr ⟨dev, s₁, dev₁, hdev, hsteps, hout⟩

/-- `parse_msg`, with its token loop. -/
theorem val_parseMsg (env : Env) (s : EdgeState) (dev : Dev) (pkt : Buf) (size : UInt64) :
    (s.parseMsg env dev pkt size).val =
      if g1MsgSize > size.toNat then some (G1ProcessStatus.errPkt.code, s)
      else
        (s.deref dev.pdt).bind fun pdt =>
          match s.getG1Fmt pdt.topic (msgKey pkt) with
          | none => some (G1ProcessStatus.noPktFmt.code, s)
          | some fmt =>
              (tokenLoop (pkt.drop g1MsgSize) (msgPayloadLen pkt size) fmt.token s dev).val.bind
                fun r => ((r.1.putDev r.2).checkRuleEngine env r.2).val.map fun s => (0, s) := by
  unfold parseMsg
  by_cases hsize : g1MsgSize > size.toNat
  · simp only [hsize, if_true, Traced.val_pure]
  · simp only [hsize, if_false, Traced.val_bind, Traced.val_touch, Option.bind_some]
    cases s.deref dev.pdt with
    | none => rfl
    | some pdt =>
        cases hfmt : s.getG1Fmt pdt.topic (msgKey pkt) with
        | none => simp [hfmt]
        | some fmt => simp [hfmt, Option.map_eq_bind]

/-- `parse_msg` is called for a device that is known. -/
theorem parseMsg_ne_noDevice {env : Env} {s s' : EdgeState} {dev : Dev} {pkt : Buf}
    {size : UInt64} {ret : ℕ} (h : (s.parseMsg env dev pkt size).val = some (ret, s')) :
    ret = 0 ∨ ret = G1ProcessStatus.noPktFmt.code := by
  rw [val_parseMsg] at h
  split at h
  · cases h
    exact Or.inl rfl
  · obtain ⟨pdt, _, hpdt⟩ := Option.bind_eq_some_iff.mp h
    split at hpdt
    · cases hpdt
      exact Or.inr rfl
    · obtain ⟨r, _, hrule⟩ := Option.bind_eq_some_iff.mp hpdt
      obtain ⟨s₁, _, heq⟩ := Option.map_eq_some_iff.mp hrule
      cases heq
      exact Or.inl rfl

/-- `parse_msg` does nothing where the product has no format for the key. -/
theorem parseMsg_noPktFmt {env : Env} {s s' : EdgeState} {dev : Dev} {pkt : Buf}
    {size : UInt64}
    (h : (s.parseMsg env dev pkt size).val = some (G1ProcessStatus.noPktFmt.code, s')) :
    g1MsgSize ≤ size.toNat ∧ s.deref dev.pdt ≠ none ∧
      s.getG1Fmt dev.pdt.topic (msgKey pkt) = none ∧ s' = s := by
  rw [val_parseMsg] at h
  by_cases hsize : g1MsgSize > size.toNat
  · rw [if_pos hsize] at h
    cases h
  · rw [if_neg hsize] at h
    obtain ⟨pdt, hpdt, hmsg⟩ := Option.bind_eq_some_iff.mp h
    obtain ⟨_, hptr⟩ := deref_eq_some_iff.mp hpdt
    have htopic : pdt.topic = dev.pdt.topic := congrArg PdtPtr.topic hptr
    cases hfmt : s.getG1Fmt pdt.topic (msgKey pkt) with
    | none =>
        simp only [hfmt] at hmsg
        cases hmsg
        exact ⟨Nat.not_lt.mp hsize, by rw [hpdt]; exact Option.some_ne_none pdt,
          htopic ▸ hfmt, rfl⟩
    | some fmt =>
        simp only [hfmt] at hmsg
        obtain ⟨r, _, hrule⟩ := Option.bind_eq_some_iff.mp hmsg
        obtain ⟨s₁, _, heq⟩ := Option.map_eq_some_iff.mp hrule
        cases heq

/-- A packet that is passed on to the server is passed on with the status that
`parse_g1_pkt` gave it. -/
theorem edgeRcvPkt_passedOn {env : Env} {s s' : EdgeState} {type : UInt32} {module : UInt64}
    {pkt : Buf} {size : UInt64} {ret : ℕ} (hon : s.ctl.function = edgeFuncOn) (hsize : size ≠ 0)
    (hret : ret ≠ 0) (hraw : ret ≠ G1ProcessStatus.rawPkt.code)
    (h : (s.edgeRcvPkt env type module pkt size).val = some (ret, s')) :
    ∃ file s₁, (({ s.advance 1 with pktFile := file } : EdgeState).parseG1Pkt env type pkt
        size).val = some (ret, s₁) ∧
      s' = s₁.mgtSendMsg (pktReport env (UInt32.ofNat ret) module.toUInt32 pkt size.toUInt32) := by
  obtain ⟨file, hfile⟩ := received_eq env s type module pkt size
  rw [val_edgeRcvPkt env type module pkt hon hsize, hfile, Option.map_eq_some_iff] at h
  obtain ⟨⟨ret₁, s₁⟩, hparse, hanswer⟩ := h
  refine ⟨file, s₁, ?_⟩
  by_cases hzero : ret₁ = 0
  · -- success is answered with `0` or with the status for a raw packet
    simp only [answer, hzero, ne_eq, not_true_eq_false, if_false] at hanswer
    split at hanswer
    · exact absurd (congrArg Prod.fst hanswer).symm hraw
    · exact absurd (congrArg Prod.fst hanswer).symm hret
  · simp only [answer, hzero, ne_eq, not_false_eq_true, if_true, Prod.mk.injEq] at hanswer
    obtain ⟨rfl, rfl⟩ := hanswer
    exact ⟨hparse, rfl⟩

/-- A packet is answered with `G1_STAT_NO_DEVICE` when its device is not known,
and it is passed on with this status. -/
theorem edgeRcvPkt_noDevice {env : Env} {s s' : EdgeState} {type : UInt32} {module : UInt64}
    {pkt : Buf} {size : UInt64} (hon : s.ctl.function = edgeFuncOn) (hsize : size ≠ 0)
    (h : (s.edgeRcvPkt env type module pkt size).val =
      some (G1ProcessStatus.noDevice.code, s')) :
    s.gDevMap.get (pktOid type pkt size) = none ∧
      ∃ k file, s' = { s.advance k with
        pktFile := file
        out := .server (pktReport env (UInt32.ofNat G1ProcessStatus.noDevice.code)
          module.toUInt32 pkt size.toUInt32) :: s.out } := by
  obtain ⟨file, s₁, hparse, rfl⟩ := edgeRcvPkt_passedOn hon hsize (by decide) (by decide) h
  rw [val_parseG1Pkt] at hparse
  split at hparse
  · cases hparse
  · split at hparse
    · cases hparse
    · split at hparse
      · rename_i hnone
        cases hparse
        exact ⟨hnone, 1, file, rfl⟩
      · rcases parseMsg_ne_noDevice hparse with hret | hret
        · cases hret
        · cases hret

/-- The device of a packet is registered, but its product has no format for the
key of the message. -/
structure FormatMissing (s : EdgeState) (type : UInt32) (pkt : Buf) (size : UInt64) (dev : Dev) :
    Prop where
  accepted : (pktAddress pkt size).1 ≠ 0
  header : g1MsgSize ≤ (pktMsgSize pkt size).toNat
  device : s.gDevMap.get (pktOid type pkt size) = some dev
  product : s.deref dev.pdt ≠ none
  format : s.getG1Fmt dev.pdt.topic (msgKey (pktMsg pkt size)) = none

/-- A packet is answered with `G1_STAT_NO_PKT_FMT` when the format is missing,
and it is passed on with this status. -/
theorem edgeRcvPkt_noPktFmt {env : Env} {s s' : EdgeState} {type : UInt32} {module : UInt64}
    {pkt : Buf} {size : UInt64}
    (h : (s.edgeRcvPkt env type module pkt size).val =
      some (G1ProcessStatus.noPktFmt.code, s')) :
    ∃ dev file, s.FormatMissing type pkt size dev ∧
      s' = ((({ s.advance 1 with pktFile := file } : EdgeState).freshDev dev).1).mgtSendMsg
        (pktReport env (UInt32.ofNat G1ProcessStatus.noPktFmt.code) module.toUInt32 pkt
          size.toUInt32) := by
  have hon : s.ctl.function = edgeFuncOn ∧ size ≠ 0 := by
    unfold edgeRcvPkt at h
    by_cases hfunction : s.ctl.function = edgeFuncOn
    · by_cases hsize : size = 0
      · rw [if_neg (not_not.mpr hfunction), if_pos hsize] at h
        cases h
      · exact ⟨hfunction, hsize⟩
    · rw [if_pos hfunction] at h
      cases h
  obtain ⟨file, s₁, hparse, rfl⟩ := edgeRcvPkt_passedOn hon.1 hon.2 (by decide) (by decide) h
  rw [val_parseG1Pkt] at hparse
  by_cases haccepted : (pktAddress pkt size).1 = 0
  · rw [if_pos haccepted] at hparse
    cases hparse
  · rw [if_neg haccepted] at hparse
    by_cases hgap : (pktAddress pkt size).2.Gap
    · rw [if_pos hgap] at hparse
      cases hparse
    · rw [if_neg hgap] at hparse
      have hsame : ({ s.advance 1 with pktFile := file } : EdgeState).gDevMap = s.gDevMap := rfl
      rw [hsame] at hparse
      cases hdev : s.gDevMap.get (pktOid type pkt size) with
      | none =>
          simp only [hdev] at hparse
          cases hparse
      | some dev =>
          simp only [hdev] at hparse
          obtain ⟨hheader, hproduct, hformat, rfl⟩ := parseMsg_noPktFmt hparse
          exact ⟨dev, file, ⟨haccepted, hheader, hdev, hproduct, hformat⟩, rfl⟩

/-- The format a packet is processed with. -/
def pktFmt (s : EdgeState) (type : UInt32) (pkt : Buf) (size : UInt64) : Option G1Fmt :=
  (s.gDevMap.get (pktOid type pkt size)).bind fun dev =>
    (s.deref dev.pdt).bind fun pdt => s.getG1Fmt pdt.topic (msgKey (pktMsg pkt size))

end EdgeState

end EceLib
