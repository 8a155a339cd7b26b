import EceLib.Edge.DeviceAttrs
import EceLib.Edge.Storing

/-!
# The store of a value

A value is stored in an array of 32 bytes, and the length of a token is that of
the message that added it.  `add_g1_token` compares it with the size of the
format, which can be any number, so that a packet whose format has a longer
token is copied over the end of the array, at first into the text behind it.
-/

namespace EceLib

open Support

/-! ## The accesses to a value -/

/-- A value is compared and copied with at most `n` bytes. -/
def ValueWithin (n : ℕ) (a : Access Buffer) : Prop := a.buf = .attrVal → a.len ≤ n

/-- A value is compared and copied with at most the length of its array. -/
abbrev ValueSized : Access Buffer → Prop := ValueWithin maxDeviceAttributeLen

theorem onlyOf_valueWithin (n : ℕ) : OnlyOf [.attrVal] (ValueWithin n) :=
  fun _ ha hbuf => absurd (List.mem_singleton.mpr hbuf) ha

/-- As far as the loop gets, no token is longer than `n` bytes. -/
def TokensWithin (n : ℕ) (g : Registry UInt32 EdgeAttr) (payload : Buf) :
    List G1Token → (UInt32 → AttrMem) → Prop
  | [], _ => True
  | token :: next, vals =>
      let data := payload.bytes token.offset token.len
      if token.topic = 0 ∨ token.len = 0 then TokensWithin n g payload next vals
      else
        token.len ≤ n ∧
          (ValueStorable g token.topic (vals token.topic) data →
            TokensWithin n g payload next (storeVal g vals token.topic data))

/-- A property of accesses that limits those to the values by `n` bytes, and not
those to the payload. -/
structure LimitsValues (n : ℕ) (P : Access Buffer → Prop) : Prop where
  payload : ∀ a : Access Buffer, a.buf = .payload → P a
  value : ∀ len, P ⟨.attrVal, 0, len, maxDeviceAttributeLen⟩ ↔ len ≤ n

theorem limitsValues_valueWithin (n : ℕ) : LimitsValues n (ValueWithin n) where
  payload := fun a ha hbuf => by
    rw [ha] at hbuf
    cases hbuf
  value := fun len => by simp [ValueWithin]

theorem LimitsValues.each_tokenLoop_iff {n : ℕ} {P : Access Buffer → Prop}
    (h : LimitsValues n P) {payload : Buf} (payloadLen : ℕ) {tokens : List G1Token}
    (s : EdgeState) {dev : Dev} :
    (tokenLoop payload payloadLen tokens s dev).Each P ↔
      TokensWithin n s.gAttrMap payload tokens dev.vals := by
  induction tokens generalizing s dev with
  | nil => simp [tokenLoop, TokensWithin]
  | cons token next ih =>
      have hpayload : P ⟨.payload, token.offset, token.len, payloadLen⟩ := h.payload _ rfl
      simp only [tokenLoop, TokensWithin, Traced.each_touch_bind, hpayload, true_and]
      rw [Traced.each_bind]
      by_cases hargs : token.topic = 0 ∨ token.len = 0
      · have hskip : s.uptDevAttr dev token.topic (payload.bytes token.offset token.len) =
            pure (none, s, dev) := by
          simp [EdgeState.uptDevAttr, hargs]
        rw [if_pos hargs, hskip]
        simpa using ih s
      · obtain ⟨htopic, hlen⟩ := not_or.mp hargs
        have hdata : (payload.bytes token.offset token.len).length ≠ 0 := by
          rwa [Buf.length_bytes]
        rw [if_neg hargs, EdgeState.each_uptDevAttr_iff s dev htopic hdata, Buf.length_bytes,
          h.value, ← EdgeState.isSome_uptDevAttr htopic hdata]
        refine and_congr_right fun _ => ?_
        cases hupt : (s.uptDevAttr dev token.topic
            (payload.bytes token.offset token.len)).val with
        | none => simp
        | some r =>
            obtain ⟨attr, s₁, dev₁⟩ := r
            obtain ⟨hattr, hvals⟩ := EdgeState.vals_uptDevAttr htopic hdata hupt
            simp only [Option.some.injEq, forall_eq', Option.isSome_some, true_imp_iff]
            rw [ih, ← hvals, ← hattr]
            cases attr with
            | none => exact Iff.rfl
            | some v =>
                simp only
                split <;> exact Iff.rfl

/-- A packet that is delivered has no token longer than `n` bytes, as far as its
values are stored. -/
def StoresWithin (n : ℕ) (s : EdgeState) (e : Event) : Prop :=
  e.OnDelivery (fun s dev fmt payload => TokensWithin n s.gAttrMap payload fmt.token dev.vals) s

theorem LimitsValues.eachAccess_iff {n : ℕ} {P : Access Buffer → Prop} (h : LimitsValues n P)
    (honly : OnlyOf [.attrVal] P) (env : Env) (s : EdgeState) (e : Event) :
    e.EachAccess P env s ↔ StoresWithin n s e := by
  have hreceive : ∀ a : Access Buffer, a.buf ∈ receiveBuffers → P a := honly.of_mem (by decide)
  refine Event.eachAccess_iff_onDelivery (honly.of_mem (by decide)) hreceive
    (fun type module pkt size fmt dev hdelivered hdev => ?_) e
  obtain ⟨file, hfile⟩ := EdgeState.received_eq env s type module pkt size
  rw [hdelivered.each_edgeRcvPkt env module hdev hreceive, h.each_tokenLoop_iff, hfile]
  refine and_iff_left fun r _ => ?_
  exact honly.each (touches_checkRuleEngine env _ _) (by decide)

theorem eachAccess_valueWithin_iff (n : ℕ) (env : Env) (s : EdgeState) (e : Event) :
    e.EachAccess (ValueWithin n) env s ↔ StoresWithin n s e :=
  (limitsValues_valueWithin n).eachAccess_iff (onlyOf_valueWithin n) env s e

/-! ## Properties of the values of all devices -/

/-- The values of every device have the property. -/
def EdgeState.EachValue (P : AttrVal → Prop) (s : EdgeState) : Prop :=
  ∀ oid dev topic attr, s.gDevMap.get oid = some dev → dev.attrMap.get topic = some attr → P attr

/-- An update with a value that fits its array leaves a value with the
property. -/
def KeptByUpt (P : AttrVal → Prop) : Prop :=
  ∀ {s dev topic data attr u k}, data.length ≤ maxDeviceAttributeLen →
    Upt s dev topic data attr u k → (∀ old, dev.attrMap.get topic = some old → P old) → P attr

section EachValue

variable {P : AttrVal → Prop}

/-- The loop keeps the property if it stores no value that is too long. -/
theorem tokenLoop_eachValue (hP : KeptByUpt P) {payload : Buf} {payloadLen : ℕ}
    {tokens : List G1Token} {s s' : EdgeState} {dev dev' : Dev}
    (hsized : (tokenLoop payload payloadLen tokens s dev).Each ValueSized)
    (h : (tokenLoop payload payloadLen tokens s dev).val = some (s', dev'))
    (hI : ∀ t attr, dev.attrMap.get t = some attr → P attr) :
    ∀ t attr, dev'.attrMap.get t = some attr → P attr := by
  induction tokens generalizing s dev with
  | nil =>
      cases h
      exact hI
  | cons token next ih =>
      rw [tokenLoop, Traced.each_touch_bind, Traced.each_bind] at hsized
      simp only [tokenLoop, Traced.val_bind, Traced.val_touch, Option.bind_some,
        Option.bind_eq_some_iff] at h
      obtain ⟨⟨attr, s₁, dev₁⟩, hupt, hnext⟩ := h
      refine ih (hsized.2.2 _ hupt) hnext ?_
      rcases EdgeState.uptDevAttr_cases hupt with
        ⟨_, _, rfl, _⟩ | ⟨v, u, k, _, hu, htopic, hdata, _, _, rfl⟩
      · exact hI
      · have hlen := (EdgeState.each_uptDevAttr_iff s dev htopic hdata).mp hsized.2.1 rfl
        intro t old hget
        have hput : (dev.attrMap.put v).get t = some old := hget
        rw [Registry.get_put] at hput
        split at hput
        · cases hput
          exact hP hlen hu fun old hold => hI token.topic old hold
        · exact hI t old hput

namespace EdgeState

theorem EachValue.of_get {s s' : EdgeState} (h : s.EachValue P)
    (hget : ∀ oid dev', s'.gDevMap.get oid = some dev' → s.gDevMap.get oid = some dev') :
    s'.EachValue P :=
  fun oid dev topic attr hdev => h oid dev topic attr (hget oid dev hdev)

theorem EachValue.addDevInternal {s : EdgeState} (h : s.EachValue P) (pdt : EdgePdt) (oid : Oid)
    (module : ℕ) : (s.addDevInternal pdt oid module).2.EachValue P := by
  intro i dev topic attr hdev hattr
  unfold EdgeState.addDevInternal at hdev
  split at hdev
  · exact h i dev topic attr hdev hattr
  · have hput : (s.gDevMap.put _).get i = some dev := hdev
    rw [Registry.get_put] at hput
    split at hput
    · -- the new device has no values
      cases hput
      simp at hattr
    · exact h i dev topic attr hput hattr

theorem EachValue.edgeRcvPkt (hP : KeptByUpt P) {env : Env} {s s' : EdgeState} {type : UInt32}
    {module : UInt64} {pkt : Buf} {size : UInt64} {ret : ℕ} (h : s.EachValue P)
    (hsized : StoresWithin maxDeviceAttributeLen s (.packet type module pkt size))
    (hrcv : (s.edgeRcvPkt env type module pkt size).val = some (ret, s')) : s'.EachValue P := by
  intro oid dev' topic attr hdev' hattr
  by_cases hdelivered : ∃ fmt, s.Delivered type pkt size fmt
  · obtain ⟨fmt, hdelivered⟩ := hdelivered
    obtain ⟨dev, ts, s₁, s₂, dev₂, hdev, hattrs, hloop, hget⟩ := hdelivered.edgeRcvPkt hrcv
    rw [hget] at hdev'
    split at hdev'
    · cases hdev'
      have htokens : TokensWithin maxDeviceAttributeLen s.gAttrMap (pktPayload pkt size) fmt.token
          dev.vals := hsized fmt dev hdelivered hdev
      rw [← hattrs] at htokens
      have hwithin : (tokenLoop (pktPayload pkt size)
          (msgPayloadLen (pktMsg pkt size) (pktMsgSize pkt size)) fmt.token s₁
          { dev with ts := ts }).Each (ValueWithin maxDeviceAttributeLen) :=
        ((limitsValues_valueWithin maxDeviceAttributeLen).each_tokenLoop_iff _ s₁).mpr htokens
      exact tokenLoop_eachValue hP hwithin hloop (fun t old hold => h _ dev t old hdev hold) _ _
        hattr
    · exact h oid dev' topic attr hdev' hattr
  · have hsame := values_edgeRcvPkt (fun fmt hfmt => hdelivered ⟨fmt, hfmt⟩) hrcv oid
    rw [hdev', Option.map_some] at hsame
    obtain ⟨dev, hdev, heq⟩ := Option.map_eq_some_iff.mp hsame.symm
    have hmap : dev.attrMap = dev'.attrMap := congrArg Prod.snd heq
    exact h oid dev topic attr hdev (hmap ▸ hattr)

end EdgeState

theorem keptAside_eachValue : KeptAside (EdgeState.EachValue P) where
  command := fun {s c s'} h hexec => by
    by_cases hc : c.IsDevice
    · cases c with
      | addDevice addr len linkType module topic =>
          simp only [Command.exec, Traced.val_bind, Option.bind_eq_some_iff,
            Traced.val_pure] at hexec
          obtain ⟨⟨dev, s₁⟩, hadd, heq⟩ := hexec
          cases heq
          rcases EdgeState.addDev_cases hadd with rfl | ⟨pdt, _, _, _, rfl⟩
          · exact h
          · exact h.addDevInternal _ _ _
      | delDevice addr len linkType =>
          rcases EdgeState.delDev_cases hexec with rfl | ⟨dev, _, hdel⟩
          · exact h
          · exact h.of_get fun _ _ hget => EdgeState.get_of_delDevInternal hdel hget
      | _ => exact hc.elim
    · obtain ⟨attrs, pdts, next, rfl⟩ := Command.exec_frame hexec hc
      exact h.of_get fun _ _ hget => hget
  ageing := fun h hage => h.of_get fun _ _ hget => EdgeState.get_of_doDeviceAgeing hage hget
  update := fun {s} h => by
    rcases EdgeState.doDeviceUpdate_cases s with ⟨last, _, heq⟩ | ⟨gDevMap, out, _, _, heq, hget, _⟩
    · rw [heq]
      exact h.of_get fun _ _ hget => hget
    · rw [heq]
      intro oid dev topic attr hdev hattr
      obtain ⟨old, hold, rfl⟩ := Option.map_eq_some_iff.mp ((hget oid).symm.trans hdev)
      rw [Dev.noteReport_attrMap] at hattr
      exact h oid old topic attr hold hattr
  control := fun {s s'} h hctl => by
    obtain ⟨k, ctl, stat, tick, msgs, _, _, _, rfl⟩ := hctl
    exact h.of_get fun _ _ hget => hget

theorem eachValue_init (P : AttrVal → Prop) (mac : List UInt8) (clock : ℕ → ℕ) :
    (EdgeState.init mac clock).EachValue P := by
  intro oid dev topic attr hdev
  simp [EdgeState.init] at hdev

/-- In a run that stores no value which is too long the property holds of all
values. -/
theorem KeptByUpt.throughout (hP : KeptByUpt P) (env : Env) (mac : List UInt8) (clock : ℕ → ℕ)
    {es : List Event}
    (hsized : EveryStep (EdgeState.step env) (StoresWithin maxDeviceAttributeLen)
      (EdgeState.init mac clock) es) :
    Throughout (EdgeState.step env) (EdgeState.EachValue P) (EdgeState.init mac clock) es :=
  hsized.throughout (fun _ _ _ hI hstored hstep => keptAside_eachValue.step hI hstep
    fun _ _ _ _ _ _ he hrcv => hI.edgeRcvPkt hP (he ▸ hstored) hrcv)
    (eachValue_init P mac clock)

end EachValue

/-! ## Runs -/

theorem keptByUpt_len : KeptByUpt fun attr => attr.len ≤ maxDeviceAttributeLen := by
  intro s dev topic data attr u k hlen hu _
  rwa [hu.len_eq]

/-- A packet that is delivered has no token longer than the array, as far as its
values are stored. -/
abbrev StoresSized : EdgeState → Event → Prop := StoresWithin maxDeviceAttributeLen

/-- Where all accesses stay in their buffers no value is longer than its array. -/
theorem storesSized_of_inBounds {env : Env} {s : EdgeState} {e : Event}
    (h : e.EachAccess Access.InBounds env s) : StoresSized s e := by
  let P : Access Buffer → Prop := fun a => a.buf = .attrVal → a.InBounds
  have honly : OnlyOf [.attrVal] P := fun a ha hbuf => absurd (List.mem_singleton.mpr hbuf) ha
  have hlimits : LimitsValues maxDeviceAttributeLen P :=
    ⟨fun a ha => honly a (by simp [ha]), fun len => by simp [P, Access.InBounds]⟩
  have himp : ∀ a : Access Buffer, a.InBounds → P a := fun a ha _ => ha
  exact (hlimits.eachAccess_iff honly env s e).mp (h.mono himp)

/-- In a run from the initial state no value is compared or copied with more
than the length of its array, and no stored length is more, precisely if no
packet that is delivered stores a token longer than that. -/
theorem valuesSized_iff (env : Env) (mac : List UInt8) (clock : ℕ → ℕ) (es : List Event) :
    (EveryStep (EdgeState.step env) (fun s e => e.EachAccess ValueSized env s)
        (EdgeState.init mac clock) es ∧
      Throughout (EdgeState.step env)
        (EdgeState.EachValue fun attr => attr.len ≤ maxDeviceAttributeLen)
        (EdgeState.init mac clock) es) ↔
      EveryStep (EdgeState.step env) StoresSized (EdgeState.init mac clock) es := by
  have hsteps : EveryStep (EdgeState.step env) (fun s e => e.EachAccess ValueSized env s)
      (EdgeState.init mac clock) es ↔
      EveryStep (EdgeState.step env) StoresSized (EdgeState.init mac clock) es :=
    everyStep_iff (K := fun _ => True) (A := fun _ => True) (fun _ _ _ _ _ _ => trivial)
      (fun s e _ _ => eachAccess_valueWithin_iff _ env s e) trivial fun _ _ => trivial
  rw [hsteps]
  exact and_iff_left_of_imp fun hsized => keptByUpt_len.throughout env mac clock hsized

/-- A product with a device, and a format of 33 bytes with one token for all of
them. -/
def longTokenRun : List Event :=
  [.command (.addProduct 5 1),
    .command (.addDevice (Buf.ofBytes (List.replicate mgtAddrSize 1)) 6 0 0 5),
    .command (.addPacketFormat (Buf.ofBytes (List.replicate mgtPktSize 0)) 10 5 7 33 0 10),
    .command (.addFormatToken 5 7 1 0 0 33)]

/-- A packet of the device with 33 bytes of payload. -/
def longTokenPkt : List UInt8 :=
  [0, 0, 1, 1, 1, 1, 1, 1, 0, 0, 0, 7, 0, 33] ++ List.replicate 33 9

/-- The value is copied over the end of its array. -/
theorem valuesSized_fails_of_long_token :
    ¬ ∀ (env : Env) (mac : List UInt8) (clock : ℕ → ℕ) (es : List Event),
      EveryStep (EdgeState.step env) (fun s e => e.EachAccess ValueSized env s)
          (EdgeState.init mac clock) es ∧
        Throughout (EdgeState.step env)
          (EdgeState.EachValue fun attr => attr.len ≤ maxDeviceAttributeLen)
          (EdgeState.init mac clock) es := by
  intro h
  have heval : (run (EdgeState.step Env.plain) (EdgeState.init [] fun _ => 0)
      longTokenRun).map (fun s => decide ((⟨.attrVal, 0, 33, 32⟩ : Access Buffer) ∈
        (s.edgeRcvPkt Env.plain 0 0 (Buf.ofBytes longTokenPkt) 47).acc)) = some true := by
    decide +kernel
  obtain ⟨s, hrun, haccess⟩ := Option.map_eq_some_iff.mp heval
  have hsteps := (h Env.plain [] (fun _ => 0)
    (longTokenRun ++ [.packet 0 0 (Buf.ofBytes longTokenPkt) 47])).1
  have hle := hsteps.of_append hrun _ (of_decide_eq_true haccess) rfl
  exact absurd hle (by decide)

end EceLib
