import EceLib.Answer
import EceLib.Edge.References

/-!
# Provisioning

The edge passes a packet of an unknown device on to the server, and the server
answers with six commands.  Once they are executed the device and the format of
its message are known.  Executing them again counts the attributes of the
format twice.
-/

namespace EceLib

open Support

/-! ## The six commands -/

/-- The format of the answer, before it has tokens. -/
def answerFmt (key : UInt32) : G1Fmt := freshG1Fmt key 10 (Buf.ofBytes [1, 2, 3, 4, 5]) 5 1 3

namespace EdgeState

/-- The state after the format of the answer was added. -/
def afterAddFmt (s : EdgeState) (topic key : UInt32) : EdgeState :=
  match s.getPdt topic with
  | none => s
  | some pdt => s.putPdt (pdt.putFmt (answerFmt key)) s.gAttrMap

/-- The state after the six commands of an answer. -/
def provision (s : EdgeState) (topic key module : UInt32) (addr : List UInt8) : EdgeState :=
  let s := (s.answered.addPdt topic 1).2
  let s := s.answered.afterAddDev module.toUInt16 addr 0 topic
  let s := s.answered.afterAddFmt topic key
  let s := (addG1Token s.answered topic key 1 0 0 1).2
  let s := (addG1Token s.answered topic key 2 0 1 1).2
  (addG1Token s.answered topic key 3 0 2 1).2

theorem val_addG1Fmt_answer (s : EdgeState) (topic key : UInt32) :
    (addG1Fmt s topic key 10 (Buf.ofBytes [1, 2, 3, 4, 5]) 5 1 3).val =
      some (s.afterAddFmt topic key) := by
  unfold addG1Fmt afterAddFmt
  cases hpdt : s.getPdt topic with
  | none => rfl
  | some pdt =>
      simp [Traced.val_require, Access.InBounds, fmtPktSize, answerFmt]

/-- The edge executes the whole answer. -/
theorem run_provisionMsgs (env : Env) (s : EdgeState) (topic key module : UInt32)
    {addr : List UInt8} (haddr : addr.length ≤ mgtAddrSize) :
    run (EdgeState.step env) s
        ((Server.provisionMsgs topic key module addr).map Event.ofMsg) =
      some (s.provision topic key module addr) := by
  simp only [Server.provisionMsgs, List.map_cons, List.map_nil, run_cons, run_nil,
    step_srvAddPdt, step_srvAddDev env _ topic 0 module haddr, step_srvAddG1Token, Option.bind_some]
  rw [step_srvAddG1Fmt env _ topic key 10 1 3 (by decide)]
  change (Option.bind (addG1Fmt _ topic key 10 (Buf.ofBytes [1, 2, 3, 4, 5]) 5 1 3).val _) = _
  rw [val_addG1Fmt_answer]
  rfl

/-! ## What they do -/

/-- The references the product `topic` holds to the attribute `t`. -/
def productRefs (s : EdgeState) (topic t : UInt32) : ℕ :=
  match s.gPdtMap.get topic with
  | none => 0
  | some pdt => pdt.refs t

/-- AddProduct leaves a product of the topic. -/
theorem exists_addPdt (s : EdgeState) (topic endian : UInt32) :
    ∃ pdt : EdgePdt, (s.addPdt topic endian).2.gPdtMap.get topic = some pdt ∧
      (∀ t, pdt.refs t = s.productRefs topic t) ∧
      (s.addPdt topic endian).2.gDevMap = s.gDevMap := by
  unfold productRefs
  rcases addPdt_cases s topic endian with
    ⟨heq, pdt, hget⟩ | ⟨pdt, hnone, htopic, _, _, hattr, _, heq⟩
  · rw [heq]
    exact ⟨pdt, hget, fun t => by rw [hget], rfl⟩
  · rw [heq, hnone]
    refine ⟨pdt, ?_, fun t => ?_, rfl⟩
    · rw [← htopic]
      exact Registry.get_put_self _ pdt
    · rw [EdgePdt.refs, hattr, Registry.refs_init]

/-- AddDevice leaves the product, with the device if there was none of this
address. -/
theorem exists_afterAddDev {s : EdgeState} (module : UInt16) (type : UInt32) {addr : List UInt8}
    {topic : UInt32} {pdt : EdgePdt} (haddr : addr.length ≠ 0) (htopic : topic ≠ 0)
    (hget : s.gPdtMap.get topic = some pdt) :
    (∃ head, (s.afterAddDev module addr type topic).gPdtMap.get topic =
      some { pdt with head := head }) ∧
    (s.gDevMap.get (oidOf type addr) = none →
      ∃ dev, (s.afterAddDev module addr type topic).gDevMap.get (oidOf type addr) = some dev ∧
        dev.pdt = pdt.ptr) := by
  have hargs : ¬ (addr.length = 0 ∨ topic = 0) := not_or.mpr ⟨haddr, htopic⟩
  unfold afterAddDev getPdt addDevInternal
  rw [if_neg hargs, hget]
  simp only [Registry.containsKey_eq]
  cases hdev : s.gDevMap.get (oidOf type addr) with
  | some dev => simpa using ⟨pdt.head, hget⟩
  | none =>
      simp only [Option.isSome_none, Bool.false_eq_true, if_false, forall_const]
      refine ⟨⟨pdt.head ++ [oidOf type addr], ?_⟩, ⟨_, Registry.get_put_self _ _, rfl⟩⟩
      exact get_putPdt (s := s) (g := s.gAttrMap) hget rfl

/-- AddPacketFormat leaves the format without tokens. -/
theorem get_afterAddFmt {s : EdgeState} {topic : UInt32} {pdt : EdgePdt} (key : UInt32)
    (hget : s.gPdtMap.get topic = some pdt) :
    (s.afterAddFmt topic key).gPdtMap.get topic = some (pdt.putFmt (answerFmt key)) ∧
      (s.afterAddFmt topic key).gDevMap = s.gDevMap := by
  unfold afterAddFmt getPdt
  rw [hget]
  exact ⟨get_putPdt hget rfl, rfl⟩

/-- AddFormatToken adds a token that fits, and counts it. -/
theorem exists_addG1Token {s : EdgeState} {topic key : UInt32} {pdt : EdgePdt} {fmt : G1Fmt}
    (tokenTopic : UInt32) (offset len : ℕ) (tokens : List G1Token) (htopic : topic ≠ 0)
    (htoken : tokenTopic ≠ 0) (hlen : len ≠ 0) (hget : s.gPdtMap.get topic = some pdt)
    (hfmt : pdt.fmtMap.get key = some fmt)
    (htokens : insertToken fmt.size ⟨tokenTopic, offset, len⟩ 0 0 fmt.token = some tokens) :
    ∃ pdt' : EdgePdt, (addG1Token s topic key tokenTopic 0 offset len).2.gPdtMap.get topic =
        some pdt' ∧ pdt'.ptr = pdt.ptr ∧
      pdt'.fmtMap.get key = some { fmt with token := tokens } ∧
      (∀ t, pdt'.refs t = pdt.refs t + if t = tokenTopic then 1 else 0) ∧
      (addG1Token s topic key tokenTopic 0 offset len).2.gDevMap = s.gDevMap := by
  have htype : EdgeAttrType.ofCode 0 ≠ none := by decide
  obtain ⟨attr, eattr, hattr, href, _, _, heq⟩ :=
    addG1Token_of_insert htopic htoken htype hlen hget hfmt htokens
  rw [heq]
  refine ⟨_, get_putPdt hget rfl, rfl, ?_, fun t => ?_, rfl⟩
  · have hkey : fmt.key = key := Registry.key_of_get hfmt
    rw [← hkey]
    exact Registry.get_put_self _ ({ fmt with token := tokens } : G1Fmt)
  · change (pdt.attrMap.put attr).refs t = pdt.attrMap.refs t + _
    rw [Registry.refs_put]
    change (if t = attr.topic then attr.ref else _) = _
    rw [hattr, href]
    by_cases ht : t = tokenTopic
    · simp [ht]
    · simp [ht]

/-- The tokens of the answer. -/
def answerTokens : List G1Token := [⟨1, 0, 1⟩, ⟨2, 1, 1⟩, ⟨3, 2, 1⟩]

/-- After the answer the product has the format with its three tokens, which
were counted on top of what the product counted before, and a device that was
not known is one of the product. -/
theorem provision_spec (s : EdgeState) {topic : UInt32} (key module : UInt32)
    {addr : List UInt8} (htopic : topic ≠ 0) (haddr : addr.length ≠ 0) :
    ∃ pdt : EdgePdt, (s.provision topic key module addr).gPdtMap.get topic = some pdt ∧
      pdt.fmtMap.get key = some { answerFmt key with token := answerTokens } ∧
      (∀ t, pdt.refs t = s.productRefs topic t + topicCount answerTokens t) ∧
      (s.gDevMap.get (oidOf 0 addr) = none →
        ∃ dev, (s.provision topic key module addr).gDevMap.get (oidOf 0 addr) = some dev ∧
          dev.pdt = pdt.ptr) := by
  obtain ⟨pdt₁, hpdt₁, hrefs₁, hdevs₁⟩ := exists_addPdt s.answered topic 1
  generalize hs₁ : (s.answered.addPdt topic 1).2 = s₁ at *
  obtain ⟨⟨head, hpdt₂⟩, hdev₂⟩ := exists_afterAddDev (s := s₁.answered)
    module.toUInt16 0 haddr htopic hpdt₁
  generalize hs₂ : s₁.answered.afterAddDev module.toUInt16 addr 0 topic = s₂ at *
  obtain ⟨hpdt₃, hdevs₃⟩ := get_afterAddFmt (s := s₂.answered) key hpdt₂
  have hfmt₃ : (({ pdt₁ with head := head } : EdgePdt).putFmt (answerFmt key)).fmtMap.get key =
      some (answerFmt key) := Registry.get_put_self pdt₁.fmtMap (answerFmt key)
  generalize hs₃ : s₂.answered.afterAddFmt topic key = s₃ at *
  obtain ⟨pdt₄, hpdt₄, hptr₄, hfmt₄, hrefs₄, hdevs₄⟩ := exists_addG1Token (s := s₃.answered)
    1 0 1 [⟨1, 0, 1⟩] htopic (by decide) (by decide) hpdt₃ hfmt₃ rfl
  generalize hs₄ : (addG1Token s₃.answered topic key 1 0 0 1).2 = s₄ at *
  obtain ⟨pdt₅, hpdt₅, hptr₅, hfmt₅, hrefs₅, hdevs₅⟩ := exists_addG1Token (s := s₄.answered)
    2 1 1 [⟨1, 0, 1⟩, ⟨2, 1, 1⟩] htopic (by decide) (by decide) hpdt₄ hfmt₄ rfl
  generalize hs₅ : (addG1Token s₄.answered topic key 2 0 1 1).2 = s₅ at *
  obtain ⟨pdt₆, hpdt₆, hptr₆, hfmt₆, hrefs₆, hdevs₆⟩ := exists_addG1Token (s := s₅.answered)
    3 2 1 answerTokens htopic (by decide) (by decide) hpdt₅ hfmt₅ rfl
  have hprovision : s.provision topic key module addr =
      (addG1Token s₅.answered topic key 3 0 2 1).2 := by
    rw [provision, hs₁, hs₂, hs₃, hs₄, hs₅]
  rw [hprovision]
  refine ⟨pdt₆, hpdt₆, hfmt₆, fun t => ?_, fun hnone => ?_⟩
  · have hcount : topicCount answerTokens t =
        ((if t = 1 then 1 else 0) + if t = 2 then 1 else 0) + if t = 3 then 1 else 0 := by
      simp only [answerTokens, topicCount_cons, topicCount_nil]
      omega
    have hrefs₃ : ({ pdt₁ with head := head } : EdgePdt).refs t = s.productRefs topic t :=
      hrefs₁ t
    have hrefs₄' : pdt₄.refs t = s.productRefs topic t + if t = 1 then 1 else 0 := by
      rw [hrefs₄, ← hrefs₃]
      rfl
    rw [hrefs₆, hrefs₅, hrefs₄', hcount]
    omega
  · have hnone₁ : s₁.answered.gDevMap.get (oidOf 0 addr) = none := by
      change s₁.gDevMap.get _ = none
      rw [hdevs₁]
      exact hnone
    obtain ⟨dev, hdev, hptr⟩ := hdev₂ hnone₁
    refine ⟨dev, ?_, ?_⟩
    · rw [hdevs₆]
      change s₅.gDevMap.get _ = _
      rw [hdevs₅]
      change s₄.gDevMap.get _ = _
      rw [hdevs₄]
      change s₃.gDevMap.get _ = _
      rw [hdevs₃]
      exact hdev
    · rw [hptr, hptr₆, hptr₅, hptr₄]
      rfl

end EdgeState

/-! ## The whole exchange -/

/-- The device and the format of a packet are known, and the format has the
three tokens of the answer. -/
def EdgeState.Provided (s : EdgeState) (type : UInt32) (pkt : Buf) (size : UInt64) : Prop :=
  ∃ dev pdt fmt,
    (s.getDev type (pkt.drop 2) (pktAddress pkt size).2.addrLen).val = some (some dev) ∧
    s.deref dev.pdt = some pdt ∧
    s.getG1Fmt pdt.topic (msgKey (pktMsg pkt size)) = some fmt ∧
    fmt.token = [⟨1, 0, 1⟩, ⟨2, 1, 1⟩, ⟨3, 2, 1⟩]

theorem HeaderComplete.le {pkt : Buf} {size : UInt64} (h : HeaderComplete pkt size) :
    2 + (pktAddress pkt size).1 ≤ size.toNat := by
  unfold HeaderComplete at h
  omega

/-- A packet of an unknown device is reported, the server answers the report,
and when the edge has executed the answer it knows the device and the format. -/
theorem provisioning_works (env : Env) {srv : Server} {s s₁ : EdgeState} {module : UInt64}
    {pkt : Buf} {size : UInt64} (hon : s.ctl.function = edgeFuncOn)
    (honline : srv.status = .online) (hfits : size.toNat ≤ edgePktSize)
    (haccepted : (pktAddress pkt size).1 ≠ 0) (hheader : HeaderComplete pkt size)
    (haddr : pkt.bytes 2 4 ≠ List.replicate 4 0)
    (hret : (s.edgeRcvPkt env accessWloc module pkt size).val =
      some (G1ProcessStatus.noDevice.code, s₁)) :
    ∃ report msgs s₂, s₁.out = .server report :: s.out ∧
      (srv.rcvEdgeMsg (Buf.ofBytes report) report.length).val = some (msgs, srv) ∧
      run (EdgeState.step env) s₁ (msgs.map Event.ofMsg) = some s₂ ∧
      s₂.Provided accessWloc pkt size := by
  unfold accessWloc at *
  have hsize : size ≠ 0 := by
    rintro rfl
    exact absurd hheader.le (by simp)
  obtain ⟨hnone, k, file, rfl⟩ := EdgeState.edgeRcvPkt_noDevice hon hsize hret
  obtain ⟨key, hkey, hanswer⟩ := rcvEdgeMsg_pktReport env honline
    (UInt32.ofNat G1ProcessStatus.noDevice.code) module.toUInt32 haccepted hheader.le
    (hfits.trans_lt (by decide))
  obtain rfl := hkey hheader
  obtain ⟨hlower, hupper⟩ := parseAddressFiled_addrLen haccepted
  obtain ⟨hl, _⟩ := pktAddress_accepted haccepted
  have hlength : ((pkt.drop 2).bytes 0 (pktAddress pkt size).1).length =
      (pktAddress pkt size).2.addrLen := by rw [Buf.length_bytes, hl]
  have hoid : pktOid 0 pkt size = oidOf 0 ((pkt.drop 2).bytes 0 (pktAddress pkt size).1) := by
    rw [pktOid, ← hl]
  have htopic : pkt.le32 2 ≠ 0 := fun h => haddr (Buf.le32_eq_zero_iff.mp h)
  have hshort : ((pkt.drop 2).bytes 0 (pktAddress pkt size).1).length ≤ mgtAddrSize := by
    rw [hlength]
    exact hupper.trans (by decide)
  refine ⟨_, _, _, rfl, hanswer, EdgeState.run_provisionMsgs env _ _ _ _ hshort, ?_⟩
  generalize hs₁ : ({ s.advance k with pktFile := file, out := _ } : EdgeState) = s₁
  have hne : ((pkt.drop 2).bytes 0 (pktAddress pkt size).1).length ≠ 0 := by
    rw [hlength]
    exact Nat.ne_of_gt (Nat.lt_of_lt_of_le (by decide) hlower)
  obtain ⟨pdt, hpdt, hfmt, _, hdev⟩ := EdgeState.provision_spec s₁ (msgKey (pktMsg pkt size))
    module.toUInt32 htopic hne
  have hunknown :
      s₁.gDevMap.get (oidOf 0 ((pkt.drop 2).bytes 0 (pktAddress pkt size).1)) = none := by
    rw [← hs₁, ← hoid]
    exact hnone
  obtain ⟨dev, hget, hptr⟩ := hdev hunknown
  have hkey : pdt.topic = pkt.le32 2 := Registry.key_of_get hpdt
  refine ⟨dev, pdt,
    { answerFmt (msgKey (pktMsg pkt size)) with token := EdgeState.answerTokens }, ?_, ?_,
    ?_, rfl⟩
  · rw [EdgeState.val_getDev, ← hl, hget]
  · rw [EdgeState.deref_eq_some_iff, hptr]
    exact ⟨by rw [EdgePdt.ptr, hkey, hpdt], rfl⟩
  · rw [EdgeState.getG1Fmt, EdgeState.getPdt, hkey, hpdt]
    exact hfmt

/-- A packet of a device with the address `1, 1, 1, 1, 1, 1`. -/
def unknownDevicePkt : List UInt8 := [0, 0, 1, 1, 1, 1, 1, 1, 0, 0, 0, 7, 0, 1, 9]

theorem rcv_unknownDevicePkt :
    ∃ s₁, ((EdgeState.init [] fun _ => 0).edgeRcvPkt Env.plain accessWloc 0
      (Buf.ofBytes unknownDevicePkt) 15).val = some (G1ProcessStatus.noDevice.code, s₁) := by
  have heval : (((EdgeState.init [] fun _ => 0).edgeRcvPkt Env.plain accessWloc 0
      (Buf.ofBytes unknownDevicePkt) 15).val.map Prod.fst) =
        some G1ProcessStatus.noDevice.code := by
    decide +kernel
  obtain ⟨⟨ret, s₁⟩, hret, rfl⟩ := Option.map_eq_some_iff.mp heval
  exact ⟨s₁, hret⟩

theorem provisioning_works_unknownDevicePkt :
    ∃ s₁ report msgs s₂,
      s₁.out = .server report :: (EdgeState.init [] fun _ => 0).out ∧
      (Server.init.rcvEdgeMsg (Buf.ofBytes report) report.length).val = some (msgs, Server.init) ∧
      run (EdgeState.step Env.plain) s₁ (msgs.map Event.ofMsg) = some s₂ ∧
      s₂.Provided accessWloc (Buf.ofBytes unknownDevicePkt) 15 := by
  obtain ⟨s₁, hret⟩ := rcv_unknownDevicePkt
  exact ⟨s₁, provisioning_works Env.plain rfl rfl (by decide) (by decide) (by decide) (by decide)
    hret⟩

/-! ## The same answer twice -/

/-- Two products have the same devices, formats and references. -/
structure EdgePdt.Same (pdt pdt' : EdgePdt) : Prop where
  ptr : pdt'.ptr = pdt.ptr
  endian : pdt'.endian = pdt.endian
  head : pdt'.head = pdt.head
  fmt : ∀ key, pdt'.fmtMap.get key = pdt.fmtMap.get key
  refs : ∀ t, pdt'.refs t = pdt.refs t

/-- Two states have the same products, devices and attributes. -/
structure EdgeState.SameRegistries (s s' : EdgeState) : Prop where
  pdt : ∀ topic, Option.Rel EdgePdt.Same (s.gPdtMap.get topic) (s'.gPdtMap.get topic)
  dev : ∀ oid, s'.gDevMap.get oid = s.gDevMap.get oid
  attr : ∀ topic, s'.gAttrMap.get topic = s.gAttrMap.get topic

theorem EdgePdt.Same.refl (pdt : EdgePdt) : pdt.Same pdt where
  ptr := rfl
  endian := rfl
  head := rfl
  fmt := fun _ => rfl
  refs := fun _ => rfl

namespace EdgeState

theorem SameRegistries.of_eq {s s' : EdgeState} (hpdt : s'.gPdtMap = s.gPdtMap)
    (hdev : s'.gDevMap = s.gDevMap) (hattr : s'.gAttrMap = s.gAttrMap) : SameRegistries s s' where
  pdt := fun topic => by
    rw [hpdt]
    cases s.gPdtMap.get topic with
    | none => exact Option.Rel.none
    | some pdt => exact Option.Rel.some (.refl pdt)
  dev := fun oid => by rw [hdev]
  attr := fun topic => by rw [hattr]

/-- With the topic `0` there are no devices and no tokens: the answer comes down
to the product and the format. -/
theorem provision_zero {s : EdgeState} {pdt : EdgePdt} (key module : UInt32) (addr : List UInt8)
    (hpdt : (s.answered.addPdt 0 1).2.gPdtMap.get 0 = some pdt) :
    (s.provision 0 key module addr).gPdtMap =
        (s.answered.addPdt 0 1).2.gPdtMap.put (pdt.putFmt (answerFmt key)) ∧
      (s.provision 0 key module addr).gDevMap = (s.answered.addPdt 0 1).2.gDevMap ∧
      (s.provision 0 key module addr).gAttrMap = (s.answered.addPdt 0 1).2.gAttrMap := by
  have hdev : ∀ s : EdgeState, s.afterAddDev module.toUInt16 addr 0 0 = s := fun s => by
    simp [afterAddDev]
  have htoken : ∀ (s : EdgeState) tokenTopic offset,
      (addG1Token s 0 key tokenTopic 0 offset 1).2 = s := fun s tokenTopic offset => by
    simp [addG1Token]
  have hfmt : ((s.answered.addPdt 0 1).2.answered.answered).afterAddFmt 0 key =
      ((s.answered.addPdt 0 1).2.answered.answered).putPdt (pdt.putFmt (answerFmt key))
        (s.answered.addPdt 0 1).2.gAttrMap := by
    unfold afterAddFmt getPdt
    change (match (s.answered.addPdt 0 1).2.gPdtMap.get 0 with | none => _ | some pdt => _) = _
    rw [hpdt]
    rfl
  unfold provision
  simp only [hdev, htoken, hfmt]
  exact ⟨rfl, rfl, rfl⟩

theorem provision_zero_twice (s : EdgeState) (key module : UInt32) (addr : List UInt8) :
    SameRegistries (s.provision 0 key module addr)
      ((s.provision 0 key module addr).provision 0 key module addr) := by
  obtain ⟨pdt, hpdt, _⟩ := exists_addPdt s.answered 0 1
  have hzero : pdt.topic = 0 := Registry.key_of_get hpdt
  obtain ⟨honce, _, _⟩ := provision_zero key module addr hpdt
  generalize s.provision 0 key module addr = s₁ at *
  have hget : s₁.gPdtMap.get 0 = some (pdt.putFmt (answerFmt key)) := by
    rw [honce, ← hzero]
    exact Registry.get_put_self _ (pdt.putFmt (answerFmt key))
  -- the product is there, so the first command does nothing
  have hadd : (s₁.answered.addPdt 0 1).2 = s₁.answered := by
    rcases addPdt_cases s₁.answered 0 1 with ⟨heq, _⟩ | ⟨_, hnone, _⟩
    · exact heq
    · rw [show s₁.answered.gPdtMap = s₁.gPdtMap from rfl, hget] at hnone
      cases hnone
  obtain ⟨htwice, hdev, hattr⟩ := provision_zero (s := s₁) key module addr
    (by rw [hadd]; exact hget)
  rw [hadd] at htwice hdev hattr
  have hsame : (pdt.putFmt (answerFmt key)).putFmt (answerFmt key) =
      pdt.putFmt (answerFmt key) := by
    simp only [EdgePdt.putFmt, Registry.put_put]
  have hself : s₁.gPdtMap.put (pdt.putFmt (answerFmt key)) = s₁.gPdtMap := by
    apply Registry.put_self
    change s₁.gPdtMap.get pdt.topic = _
    rw [hzero, hget]
  rw [hsame] at htwice
  exact .of_eq (htwice.trans hself) hdev hattr

/-- With another topic the second answer counts the attributes once more. -/
theorem not_sameRegistries_provision (s : EdgeState) {topic : UInt32} (key module : UInt32)
    {addr : List UInt8} (htopic : topic ≠ 0) (haddr : addr.length ≠ 0) :
    ¬ SameRegistries (s.provision topic key module addr)
      ((s.provision topic key module addr).provision topic key module addr) := by
  intro h
  obtain ⟨pdt, hpdt, _, _, _⟩ := provision_spec s key module htopic haddr
  obtain ⟨pdt', hpdt', _, hrefs', _⟩ :=
    provision_spec (s.provision topic key module addr) key module htopic haddr
  have hrel := h.pdt topic
  rw [hpdt, hpdt'] at hrel
  cases hrel with
  | some hsame =>
      have hcount := hrefs' 1
      simp only [productRefs, hpdt, hsame.refs 1] at hcount
      have hone : topicCount answerTokens 1 = 1 := by decide
      omega

end EdgeState

/-- Whatever the edge knows, executing the answer to a report twice leaves the
same as executing it once precisely when the first four bytes of the address
are zero. -/
theorem provisioning_twice_iff (env : Env) {srv : Server} (s : EdgeState)
    (status module : UInt32) {pkt : Buf} {size : UInt64} (honline : srv.status = .online)
    (haccepted : (pktAddress pkt size).1 ≠ 0) (hsize : 2 ≤ size.toNat)
    (hfits : size.toNat ≤ edgePktSize) :
    ∃ msgs s₁ s₂,
      (srv.rcvEdgeMsg (Buf.ofBytes (pktReport env status module pkt size.toUInt32))
        (pktReport env status module pkt size.toUInt32).length).val = some (msgs, srv) ∧
      run (EdgeState.step env) s (msgs.map Event.ofMsg) = some s₁ ∧
      run (EdgeState.step env) s₁ (msgs.map Event.ofMsg) = some s₂ ∧
      (s₁.SameRegistries s₂ ↔ pkt.bytes 2 4 = List.replicate 4 0) := by
  obtain ⟨hlower, hupper⟩ := parseAddressFiled_addrLen haccepted
  obtain ⟨hl, hlt, _⟩ := pktAddress_accepted haccepted
  have hcomplete : 2 + (pktAddress pkt size).1 ≤ size.toNat := by
    rw [toNat_sub_two hsize] at hlt
    omega
  obtain ⟨key, _, hanswer⟩ := rcvEdgeMsg_pktReport env honline status module haccepted
    hcomplete (hfits.trans_lt (by decide))
  have hlength : ((pkt.drop 2).bytes 0 (pktAddress pkt size).1).length =
      (pktAddress pkt size).2.addrLen := by rw [Buf.length_bytes, hl]
  have hshort : ((pkt.drop 2).bytes 0 (pktAddress pkt size).1).length ≤ mgtAddrSize := by
    rw [hlength]
    exact hupper.trans (by decide)
  refine ⟨_, _, _, hanswer, EdgeState.run_provisionMsgs env s _ _ _ hshort,
    EdgeState.run_provisionMsgs env _ _ _ _ hshort, ?_⟩
  rw [← Buf.le32_eq_zero_iff]
  by_cases htopic : pkt.le32 2 = 0
  · rw [htopic]
    exact iff_of_true (EdgeState.provision_zero_twice s key module _) rfl
  · refine iff_of_false (EdgeState.not_sameRegistries_provision s key module htopic ?_) htopic
    rw [hlength]
    exact Nat.ne_of_gt (Nat.lt_of_lt_of_le (by decide) hlower)

/-- A packet of a device whose address is all zero. -/
def zeroAddressPkt : List UInt8 := [0, 0, 0, 0, 0, 0, 0, 0, 0, 0, 0, 7, 0, 1, 9]

theorem provisioning_twice_zeroAddressPkt :
    ∃ msgs s₁ s₂,
      (Server.init.rcvEdgeMsg
          (Buf.ofBytes (pktReport Env.plain 1 0 (Buf.ofBytes zeroAddressPkt) 15))
        (pktReport Env.plain 1 0 (Buf.ofBytes zeroAddressPkt) 15).length).val =
          some (msgs, Server.init) ∧
      run (EdgeState.step Env.plain) (EdgeState.init [] fun _ => 0) (msgs.map Event.ofMsg) =
        some s₁ ∧
      run (EdgeState.step Env.plain) s₁ (msgs.map Event.ofMsg) = some s₂ ∧
      s₁.SameRegistries s₂ := by
  have honline : Server.init.status = .online := rfl
  have haccepted : (pktAddress (Buf.ofBytes zeroAddressPkt) 15).1 ≠ 0 := by decide
  obtain ⟨msgs, s₁, s₂, hanswer, hrun₁, hrun₂, hiff⟩ := provisioning_twice_iff Env.plain
    (EdgeState.init [] fun _ => 0) 1 0 honline haccepted (by decide) (by decide)
  exact ⟨msgs, s₁, s₂, hanswer, hrun₁, hrun₂, hiff.mpr (by decide)⟩

/-- The device that was not known has another address than zero, so executing
the answer again changes the references. -/
theorem provisioning_twice_differs :
    ¬ ∀ (env : Env) (mac : List UInt8) (clock : ℕ → ℕ) (es : List Event) (srv : Server)
      (s s₁ s₂ : EdgeState) (report : List UInt8) (msgs : List (List UInt8)),
      run (EdgeState.step env) (EdgeState.init mac clock) es = some s →
      Output.server report ∈ s.out →
      (srv.rcvEdgeMsg (Buf.ofBytes report) report.length).val = some (msgs, srv) →
      run (EdgeState.step env) s (msgs.map Event.ofMsg) = some s₁ →
      run (EdgeState.step env) s₁ (msgs.map Event.ofMsg) = some s₂ →
      s₁.SameRegistries s₂ := by
  intro h
  obtain ⟨s, hret⟩ := rcv_unknownDevicePkt
  have hrun : run (EdgeState.step Env.plain) (EdgeState.init [] fun _ => 0)
      [.packet accessWloc 0 (Buf.ofBytes unknownDevicePkt) 15] = some s := by
    simp only [run_cons, run_nil, EdgeState.step, hret, Option.map_some, Option.bind_some]
  obtain ⟨_, k, file, hs⟩ := EdgeState.edgeRcvPkt_noDevice rfl (by decide) hret
  have hout : Output.server (pktReport Env.plain (UInt32.ofNat G1ProcessStatus.noDevice.code)
      (0 : UInt64).toUInt32 (Buf.ofBytes unknownDevicePkt) (15 : UInt64).toUInt32) ∈ s.out := by
    rw [hs]
    exact List.mem_cons_self
  have honline : Server.init.status = .online := rfl
  have haccepted : (pktAddress (Buf.ofBytes unknownDevicePkt) 15).1 ≠ 0 := by decide
  obtain ⟨key, _, hanswer⟩ := rcvEdgeMsg_pktReport Env.plain honline
    (UInt32.ofNat G1ProcessStatus.noDevice.code) (0 : UInt64).toUInt32 haccepted (by decide)
    (by decide)
  have hshort : (((Buf.ofBytes unknownDevicePkt).drop 2).bytes 0
      (pktAddress (Buf.ofBytes unknownDevicePkt) 15).1).length ≤ mgtAddrSize := by
    rw [Buf.length_bytes]
    decide
  refine EdgeState.not_sameRegistries_provision s key _ (by decide) ?_
    (h Env.plain [] (fun _ => 0) _ Server.init s _ _ _ _ hrun hout hanswer
      (EdgeState.run_provisionMsgs Env.plain s _ key _ hshort)
      (EdgeState.run_provisionMsgs Env.plain _ _ key _ hshort))
  rw [Buf.length_bytes]
  decide

end EceLib
