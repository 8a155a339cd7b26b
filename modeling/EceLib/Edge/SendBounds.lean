import EceLib.Edge.RuleVerdict

/-!
# The packets of the rule engine

`send_pkt_to_device` copies the template of a format and the three bytes of the
rule engine into an array of 256 bytes.  How many bytes are copied, and where
they go, is what the format was added with; only the length of the template is
limited, by the array of the format that it was copied to.
-/

namespace EceLib

open Support Rule

/-! ## Formats that can be sent -/

/-- The template of every format was copied into its array. -/
def EdgeState.FmtsShort (s : EdgeState) : Prop :=
  s.EachFmt fun _ fmt => fmt.pktLen ≤ fmtPktSize

theorem kept_fmtsShort (env : Env) : Kept env EdgeState.FmtsShort :=
  kept_eachFmt env (fun _ _ _ _ _ _ _ hlen => hlen) (fun _ _ _ hshort _ => hshort)
    fun _ hshort => hshort

/-- The array of the template has all bytes that are sent, the data has three,
and the packet has room for them. -/
structure G1Fmt.Sendable (fmt : G1Fmt) : Prop where
  size : fmt.size ≤ fmtPktSize
  len : fmt.len ≤ 3
  data : fmt.len ≠ 0 → 12 + fmt.offset + fmt.len ≤ EdgeState.sndPktSize

/-- The format of the packet that `check_rule_engine` sends can be sent, if the
product of the device has one. -/
def EdgeState.AnswerSendable (s : EdgeState) (dev : Dev) : Prop :=
  ∀ pdt, s.deref dev.pdt = some pdt → ∀ fmt, s.getG1Fmt pdt.topic 0x10000002 = some fmt →
    fmt.Sendable

/-! ## The accesses -/

/-- The buffers of `send_pkt_to_device`. -/
def sndBuffers : List Buffer := [.fmtPkt, .sndPkt, .sndData]

/-- Every byte of the access is in its object; a copy of no bytes has none.  And
no value is longer than the two arrays of its entry. -/
def SndInside (a : Access Buffer) : Prop :=
  (a.buf ∈ sndBuffers → ∀ i < a.len, a.off + i < a.size) ∧ ValueWithin attrMemSize a

theorem onlyOf_sndInside : OnlyOf (.attrVal :: sndBuffers) SndInside := by
  intro a ha
  refine ⟨fun hbuf => absurd (List.mem_cons_of_mem _ hbuf) ha, fun hbuf => absurd ?_ ha⟩
  exact hbuf ▸ List.mem_cons_self

theorem sndInside_iff {buf : Buffer} (hbuf : buf ∈ sndBuffers) {off len size : ℕ} :
    SndInside ⟨buf, off, len, size⟩ ↔ (len ≠ 0 → off + len ≤ size) := by
  have hvalue : ValueWithin attrMemSize ⟨buf, off, len, size⟩ := fun heq => by
    have hattr : buf = .attrVal := heq
    rw [hattr] at hbuf
    exact absurd hbuf (by decide)
  rw [SndInside, and_iff_left hvalue]
  exact (forall_prop_of_true hbuf).trans forall_byte_iff

theorem sndInside_sendPktToDevice_iff {s : EdgeState} (hshort : s.FmtsShort) (dev : Dev)
    (key : UInt32) {data : List UInt8} (hdata : data.length = 3) :
    (s.sendPktToDevice dev key data).Each SndInside ↔
      ∀ pdt, s.deref dev.pdt = some pdt → ∀ fmt, s.getG1Fmt pdt.topic key = some fmt →
        fmt.Sendable := by
  unfold EdgeState.sendPktToDevice
  cases hpdt : s.deref dev.pdt with
  | none => simp
  | some pdt =>
      cases hfmt : s.getG1Fmt pdt.topic key with
      | none => simp [hfmt]
      | some fmt =>
          have hpktLen : fmt.pktLen ≤ fmtPktSize := hshort.of_getG1Fmt hfmt
          simp only [hfmt, Traced.each_touch_bind, Traced.each_pure, and_true, Option.some.injEq,
            forall_eq', hdata]
          rw [sndInside_iff (by decide), sndInside_iff (by decide), sndInside_iff (by decide),
            sndInside_iff (by decide), sndInside_iff (by decide)]
          simp only [fmtPktSize] at hpktLen
          constructor
          · rintro ⟨htemplate, _, hthree, hroom, _⟩
            refine ⟨?_, ?_, hroom⟩
            · simp only [fmtPktSize] at htemplate ⊢
              omega
            · omega
          · rintro ⟨hsize, hlen, hroom⟩
            simp only [fmtPktSize, EdgeState.sndPktSize] at hsize hroom ⊢
            refine ⟨fun _ => ?_, fun _ => ?_, fun _ => ?_, hroom, fun _ => ?_⟩
            · omega
            · omega
            · omega
            · omega

/-- A packet is sent if there is an update to be reported and the rule holds. -/
theorem sndInside_checkRuleEngine_iff (env : Env) {s : EdgeState} (hshort : s.FmtsShort)
    (dev : Dev) :
    (s.checkRuleEngine env dev).Each SndInside ↔
      (dev.Pending → env.ruleEval dev.ruleText = some true → s.AnswerSendable dev) := by
  have hdata : [(0xFF : UInt8), 0xFF, 0xFE].length = 3 := rfl
  have hsend := sndInside_sendPktToDevice_iff hshort dev 0x10000002 hdata
  have hother : ∀ buf ∉ Buffer.attrVal :: sndBuffers, ∀ n,
      SndInside ⟨buf, 0, n, EdgeState.ruleBufSize⟩ := fun buf hbuf n => onlyOf_sndInside _ hbuf
  rw [each_checkRuleEngine_iff]
  refine imp_congr_right fun _ => ?_
  constructor
  · rintro ⟨_, _, hrule⟩ hpassed
    exact hsend.mp ((hrule true hpassed).1 rfl)
  · intro h
    refine ⟨hother .ruleBuf (by decide) _, hother .luaBuf (by decide) _, fun passed hrule =>
      ⟨fun hpassed => ?_, fun _ => hother .luaBuf (by decide) _⟩⟩
    exact hsend.mpr (h (hpassed ▸ hrule))

/-! ## Runs -/

/-- The accesses of `send_pkt_to_device`, and those to the values, on a packet
that is received. -/
def SendInside (env : Env) (s : EdgeState) : Event → Prop
  | .packet type module pkt size => (s.edgeRcvPkt env type module pkt size).Each SndInside
  | _ => True

/-- Of a packet that is delivered no token is longer than the arrays of its
entry.  If its values can be stored, there is then an update that was not
reported, and the rule holds, its answer can be sent. -/
def SendFits (env : Env) (s : EdgeState) (e : Event) : Prop :=
  e.OnDelivery (fun s dev fmt payload =>
    TokensWithin attrMemSize s.gAttrMap payload fmt.token dev.vals ∧
      (TokensStorable s.gAttrMap payload fmt.token dev.vals →
        (s.devAfter dev fmt payload).Pending →
          env.ruleEval (s.devAfter dev fmt payload).ruleText = some true →
            s.AnswerSendable dev)) s

theorem sendInside_iff (env : Env) {s : EdgeState} (hshort : s.FmtsShort) (e : Event) :
    SendInside env s e ↔ SendFits env s e := by
  have hreceive : ∀ a : Access Buffer, a.buf ∈ receiveBuffers → SndInside a :=
    onlyOf_sndInside.of_mem (by decide)
  have hvalues : LimitsValues attrMemSize SndInside :=
    ⟨fun a ha => onlyOf_sndInside a (by simp [ha, sndBuffers]), fun len => by
      simp [SndInside, ValueWithin, sndBuffers]⟩
  cases e with
  | packet type module pkt size =>
      refine EdgeState.edgeRcvPkt_iff_onDelivery hreceive fun fmt dev hdelivered hdev =>
        hdelivered.each_iff_devAfter env module hdev hreceive hvalues fun s₁ hpdts => ?_
      have hshort₁ : s₁.FmtsShort := fun topic pdt hpdt => hshort topic pdt (hpdts ▸ hpdt)
      have hanswer : s₁.AnswerSendable (s.devAfter dev fmt (pktPayload pkt size)) ↔
          s.AnswerSendable dev := by
        unfold EdgeState.AnswerSendable EdgeState.deref EdgeState.getG1Fmt EdgeState.getPdt
        rw [hpdts, EdgeState.pdt_devAfter]
      rw [sndInside_checkRuleEngine_iff env hshort₁, hanswer]
  | _ => exact Iff.rfl

/-- In a run from the initial state every packet of the rule engine is built
inside its array, from bytes that are there, precisely if the format for it can
be sent whenever the rule holds. -/
theorem sendInside_everyStep_iff (env : Env) (mac : List UInt8) (clock : ℕ → ℕ)
    (es : List Event) :
    EveryStep (EdgeState.step env) (SendInside env) (EdgeState.init mac clock) es ↔
      EveryStep (EdgeState.step env) (SendFits env) (EdgeState.init mac clock) es :=
  everyStep_iff (A := fun _ => True)
    (fun _ _ _ hshort _ hstep => (kept_fmtsShort env).step hshort hstep)
    (fun _ e hshort _ => sendInside_iff env hshort e) (EdgeState.eachFmt_init _ mac clock)
    fun _ _ => trivial

/-- A product with a device, a format of three bytes with three tokens, and a
format of 129 bytes for the answer of the rule engine. -/
def longAnswerRun : List Event :=
  [.command (.addProduct 5 1),
    .command (.addDevice (Buf.ofBytes (List.replicate mgtAddrSize 1)) 6 0 0 5),
    .command (.addPacketFormat (Buf.ofBytes (List.replicate mgtPktSize 0)) 10 5 7 3 0 10),
    .command (.addPacketFormat (Buf.ofBytes (List.replicate mgtPktSize 0)) 10 5 0x10000002 129 0 3),
    .command (.addFormatToken 5 7 1 0 0 1),
    .command (.addFormatToken 5 7 2 0 1 1),
    .command (.addFormatToken 5 7 3 0 2 1)]

/-- With the values 4, 5 and 6 the rule holds, and the template is read over the
end of its array. -/
theorem sendInside_fails_of_long_answer :
    ¬ ∀ (env : Env) (mac : List UInt8) (clock : ℕ → ℕ) (es : List Event),
      EveryStep (EdgeState.step env) (SendInside env) (EdgeState.init mac clock) es := by
  intro h
  have heval : (run (EdgeState.step { Env.plain with ruleEval := ruleVerdict intTarget 0 })
      (EdgeState.init [] fun _ => 1) longAnswerRun).map (fun s =>
        decide ((⟨.fmtPkt, 0, 129, 128⟩ : Access Buffer) ∈
          (s.edgeRcvPkt { Env.plain with ruleEval := ruleVerdict intTarget 0 } 0 0
            (Buf.ofBytes threeAttrsPkt) 17).acc)) = some true := by
    decide +kernel
  obtain ⟨s, hrun, haccess⟩ := Option.map_eq_some_iff.mp heval
  have hpkt := (h { Env.plain with ruleEval := ruleVerdict intTarget 0 } [] (fun _ => 1)
    (longAnswerRun ++ [.packet 0 0 (Buf.ofBytes threeAttrsPkt) 17])).of_append hrun
  have hinside := (hpkt _ (of_decide_eq_true haccess)).1 (by decide) 128 (by decide)
  exact absurd hinside (by decide)

end EceLib
