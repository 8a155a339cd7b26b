import EceLib.Provisioning

/-!
# Packets of a known device without a format

The edge looks a format up at the product of the device record.  The server
provides it at the product that it takes from the address of the packet, and
its AddDevice does not move a device that is known.  So the format is found
afterwards precisely when the two products are the same.
-/

namespace EceLib

open Support

namespace EdgeState

/-! ## What the six commands leave alone -/

/-- Devices stay as they are, and so do formats, except for one under `key` at
the product `topic`, which is not lost. -/
structure Provides (topic key : UInt32) (s s' : EdgeState) : Prop where
  dev : ∀ oid dev, s.gDevMap.get oid = some dev → s'.gDevMap.get oid = some dev
  other : ∀ t k, (t = topic → k ≠ key) → s'.getG1Fmt t k = s.getG1Fmt t k
  kept : s.getG1Fmt topic key ≠ none → s'.getG1Fmt topic key ≠ none

variable {topic key : UInt32}

theorem Provides.refl (s : EdgeState) : Provides topic key s s :=
  ⟨fun _ _ h => h, fun _ _ _ => rfl, fun h => h⟩

theorem Provides.trans {s s₁ s₂ : EdgeState} (h₁ : Provides topic key s s₁)
    (h₂ : Provides topic key s₁ s₂) : Provides topic key s s₂ where
  dev := fun oid dev h => h₂.dev oid dev (h₁.dev oid dev h)
  other := fun t k ht => (h₂.other t k ht).trans (h₁.other t k ht)
  kept := fun h => h₂.kept (h₁.kept h)

theorem provides_answered (s : EdgeState) : Provides topic key s s.answered :=
  ⟨fun _ _ h => h, fun _ _ _ => rfl, fun h => h⟩

theorem getG1Fmt_eq (s : EdgeState) (t k : UInt32) :
    s.getG1Fmt t k = (s.gPdtMap.get t).bind fun pdt => pdt.fmtMap.get k := by
  unfold getG1Fmt getPdt
  cases s.gPdtMap.get t <;> rfl

/-- A product of the topic is put in. -/
theorem getG1Fmt_put {s s' : EdgeState} {pdt : EdgePdt} (hput : s'.gPdtMap = s.gPdtMap.put pdt)
    (t k : UInt32) :
    s'.getG1Fmt t k = if t = pdt.topic then pdt.fmtMap.get k else s.getG1Fmt t k := by
  rw [getG1Fmt_eq, getG1Fmt_eq, hput, Registry.get_put]
  change (if t = pdt.topic then some pdt else _).bind _ = _
  by_cases ht : t = pdt.topic
  · rw [if_pos ht, if_pos ht]
    rfl
  · rw [if_neg ht, if_neg ht]

theorem provides_put {s s' : EdgeState} {pdt : EdgePdt} (hput : s'.gPdtMap = s.gPdtMap.put pdt)
    (htopic : pdt.topic = topic)
    (hother : ∀ k ≠ key, pdt.fmtMap.get k = s.getG1Fmt topic k)
    (hfmt : s.getG1Fmt topic key ≠ none → pdt.fmtMap.get key ≠ none)
    (hdev : ∀ oid dev, s.gDevMap.get oid = some dev → s'.gDevMap.get oid = some dev) :
    Provides topic key s s' where
  dev := hdev
  other := fun t k hk => by
    rw [getG1Fmt_put hput, htopic]
    by_cases ht : t = topic
    · rw [if_pos ht, ht]
      exact hother k (hk ht)
    · rw [if_neg ht]
  kept := fun h => by
    rw [getG1Fmt_put hput, if_pos htopic.symm]
    exact hfmt h

theorem provides_addPdt (s : EdgeState) (topic key endian : UInt32) :
    Provides topic key s (s.addPdt topic endian).2 := by
  rcases addPdt_cases s topic endian with ⟨heq, _⟩ | ⟨pdt, hnone, htopic, _, _, _, hfmts, heq⟩
  · rw [heq]
    exact .refl s
  · have hnofmt : ∀ k, s.getG1Fmt topic k = none := fun k => by
      rw [getG1Fmt_eq, hnone]
      rfl
    rw [heq]
    refine provides_put rfl htopic (fun k _ => ?_) (fun hfmt => absurd (hnofmt key) hfmt)
      fun _ _ h => h
    rw [hnofmt, hfmts, Registry.get_init]

theorem provides_afterAddDev (s : EdgeState) (topic key : UInt32) (module : UInt16)
    (addr : List UInt8) (type : UInt32) :
    Provides topic key s (s.afterAddDev module addr type topic) := by
  unfold afterAddDev getPdt
  by_cases hargs : addr.length = 0 ∨ topic = 0
  · rw [if_pos hargs]
    exact .refl s
  · rw [if_neg hargs]
    cases hpdt : s.gPdtMap.get topic with
    | none => exact .refl s
    | some pdt =>
        have htopic : pdt.topic = topic := Registry.key_of_get hpdt
        simp only [addDevInternal, Registry.containsKey_eq]
        cases hdev : s.gDevMap.get (oidOf type addr) with
        | some dev => exact .refl s
        | none =>
            have hfmts : ∀ k, s.getG1Fmt topic k = pdt.fmtMap.get k := fun k => by
              rw [getG1Fmt_eq, hpdt]
              rfl
            refine provides_put rfl htopic (fun k _ => (hfmts k).symm)
              (fun hfmt => hfmts key ▸ hfmt) fun oid dev h => ?_
            · have hne : oid ≠ oidOf type addr := fun heq => by
                rw [heq, hdev] at h
                cases h
              exact (Registry.get_put_of_ne s.gDevMap _ hne).trans h

theorem provides_afterAddFmt (s : EdgeState) (topic key : UInt32) :
    Provides topic key s (s.afterAddFmt topic key) := by
  unfold afterAddFmt getPdt
  cases hpdt : s.gPdtMap.get topic with
  | none => exact .refl s
  | some pdt =>
      have htopic : pdt.topic = topic := Registry.key_of_get hpdt
      refine provides_put rfl htopic (fun k hk => ?_) (fun _ => ?_) fun _ _ h => h
      · rw [getG1Fmt_eq, hpdt]
        exact Registry.get_put_of_ne pdt.fmtMap (answerFmt key) hk
      · have hget : (pdt.putFmt (answerFmt key)).fmtMap.get key = some (answerFmt key) :=
          Registry.get_put_self pdt.fmtMap (answerFmt key)
        rw [hget]
        exact Option.some_ne_none _

theorem provides_addG1Token (s : EdgeState) (topic key tokenTopic type : UInt32)
    (offset len : ℕ) :
    Provides topic key s (addG1Token s topic key tokenTopic type offset len).2 := by
  rcases addG1Token_cases s topic key tokenTopic type offset len with
    heq | ⟨pdt, fmt, tokens, attr, eattr, hpdt, hfmt, _, _, _, _, _, _, _, _, _, heq⟩
  · rw [heq]
    exact .refl s
  · have htopic : pdt.topic = topic := Registry.key_of_get hpdt
    have hkey : fmt.key = key := Registry.key_of_get hfmt
    have hget : (pdt.fmtMap.put { fmt with token := tokens }).get key =
        some { fmt with token := tokens } := by
      rw [← hkey]
      exact Registry.get_put_self pdt.fmtMap ({ fmt with token := tokens } : G1Fmt)
    rw [heq]
    refine provides_put rfl htopic (fun k hk => ?_) (fun _ => ?_) fun _ _ h => h
    · rw [getG1Fmt_eq, hpdt]
      exact Registry.get_put_of_ne pdt.fmtMap { fmt with token := tokens } (hkey.symm ▸ hk)
    · change (pdt.fmtMap.put { fmt with token := tokens }).get key ≠ none
      rw [hget]
      exact Option.some_ne_none _

/-- After the six commands the product they name has the format. -/
theorem getG1Fmt_afterAddFmt (s : EdgeState) {topic : UInt32} (key : UInt32) {pdt : EdgePdt}
    (hpdt : s.gPdtMap.get topic = some pdt) :
    (s.afterAddFmt topic key).getG1Fmt topic key ≠ none := by
  obtain ⟨hget, _⟩ := get_afterAddFmt key hpdt
  have hfmt : (pdt.putFmt (answerFmt key)).fmtMap.get key = some (answerFmt key) :=
    Registry.get_put_self pdt.fmtMap (answerFmt key)
  rw [getG1Fmt_eq, hget, Option.bind_some, hfmt]
  exact Option.some_ne_none _

theorem exists_pdt_afterAddDev {s : EdgeState} {topic : UInt32} {pdt : EdgePdt}
    (module : UInt16) (addr : List UInt8) (type : UInt32)
    (hpdt : s.gPdtMap.get topic = some pdt) :
    ∃ pdt', (s.afterAddDev module addr type topic).gPdtMap.get topic = some pdt' := by
  by_cases hargs : addr.length = 0 ∨ topic = 0
  · rw [afterAddDev, if_pos hargs]
    exact ⟨pdt, hpdt⟩
  · obtain ⟨haddr, htopic⟩ := not_or.mp hargs
    obtain ⟨⟨head, hget⟩, _⟩ := exists_afterAddDev module type haddr htopic hpdt
    exact ⟨_, hget⟩

theorem provides_provision (s : EdgeState) (topic key module : UInt32) (addr : List UInt8) :
    Provides topic key s (s.provision topic key module addr) ∧
      (s.provision topic key module addr).getG1Fmt topic key ≠ none := by
  simp only [provision]
  obtain ⟨pdt₁, hpdt₁, _⟩ := exists_addPdt s.answered topic 1
  have h₁ : Provides topic key s (s.answered.addPdt topic 1).2 :=
    (provides_answered s).trans (provides_addPdt _ _ _ _)
  generalize (s.answered.addPdt topic 1).2 = s₁ at *
  have hanswered : s₁.answered.gPdtMap.get topic = some pdt₁ := hpdt₁
  obtain ⟨pdt₂, hpdt₂⟩ := exists_pdt_afterAddDev module.toUInt16 addr 0 hanswered
  have h₂ : Provides topic key s (s₁.answered.afterAddDev module.toUInt16 addr 0 topic) :=
    (h₁.trans (provides_answered s₁)).trans (provides_afterAddDev _ _ _ _ _ _)
  generalize s₁.answered.afterAddDev module.toUInt16 addr 0 topic = s₂ at *
  have h₃ : Provides topic key s (s₂.answered.afterAddFmt topic key) :=
    (h₂.trans (provides_answered s₂)).trans (provides_afterAddFmt _ _ _)
  have hfmt₃ : (s₂.answered.afterAddFmt topic key).getG1Fmt topic key ≠ none :=
    getG1Fmt_afterAddFmt s₂.answered key hpdt₂
  generalize s₂.answered.afterAddFmt topic key = s₃ at *
  have htokens : ∀ (s : EdgeState) tokenTopic offset,
      Provides topic key s (addG1Token s.answered topic key tokenTopic 0 offset 1).2 :=
    fun s tokenTopic offset => (provides_answered s).trans (provides_addG1Token _ _ _ _ _ _ _)
  have h₄ : Provides topic key s₃ _ :=
    ((htokens s₃ 1 0).trans (htokens _ 2 1)).trans (htokens _ 3 2)
  exact ⟨h₃.trans h₄, h₄.kept hfmt₃⟩

end EdgeState

/-! ## The whole exchange -/

/-- The product topic and the key that the server finds in a packet field. -/
def serverReads (field : Buf) : Option (UInt32 × UInt32) :=
  (serverAddress field).h1.map fun h1 =>
    (field.le32 h1, field.be32 (h1 + (serverAddress field).addrLen))

theorem addrLen_serverAddress_le (field : Buf) : (serverAddress field).addrLen ≤ 36 := by
  unfold serverAddress
  rcases parseAddressFiled_addrLen_cases (field.mem 1) 2 0 with hzero | ⟨_, hupper⟩
  · rw [hzero]
    exact Nat.zero_le 36
  · exact hupper

/-- What becomes of a report: the server makes sense of it or not, and then the
edge executes the answer. -/
theorem exchange_pktReport (env : Env) {srv : Server} (honline : srv.status = .online)
    (status module : UInt32) (pkt : Buf) (size : UInt64) (s : EdgeState) :
    (serverReads (reportField env status module pkt size) = none ∧
      (srv.rcvEdgeMsg (Buf.ofBytes (pktReport env status module pkt size.toUInt32))
        (pktReport env status module pkt size.toUInt32).length).val = none) ∨
      ∃ topic key addr msgs,
        serverReads (reportField env status module pkt size) = some (topic, key) ∧
        (srv.rcvEdgeMsg (Buf.ofBytes (pktReport env status module pkt size.toUInt32))
          (pktReport env status module pkt size.toUInt32).length).val = some (msgs, srv) ∧
        run (EdgeState.step env) s (msgs.map Event.ofMsg) =
          some (s.provision topic key module addr) := by
  rw [val_rcvEdgeMsg_pktReport env honline]
  generalize reportField env status module pkt size = field
  have hlen := addrLen_serverAddress_le field
  unfold serverReads
  cases (serverAddress field).h1 with
  | none => exact Or.inl ⟨rfl, rfl⟩
  | some h1 =>
      refine Or.inr ⟨_, _, _, _, rfl, rfl, EdgeState.run_provisionMsgs env s _ _ _ ?_⟩
      rw [Buf.length_bytes]
      exact hlen.trans (by decide)

/-- The report on a packet is answered, and once the edge has executed the answer
the product of the device has the format, and the packet does not lack it again. -/
def EdgeState.FormatProvided (s₁ : EdgeState) (env : Env) (srv : Server) (out : List Output)
    (type : UInt32) (pkt : Buf) (size : UInt64) (dev : Dev) : Prop :=
  ∃ report msgs s₂, s₁.out = .server report :: out ∧
    (srv.rcvEdgeMsg (Buf.ofBytes report) report.length).val = some (msgs, srv) ∧
    run (EdgeState.step env) s₁ (msgs.map Event.ofMsg) = some s₂ ∧
    s₂.getG1Fmt dev.pdt.topic (msgKey (pktMsg pkt size)) ≠ none ∧
    ∀ module' ret s₃, (s₂.edgeRcvPkt env type module' pkt size).val = some (ret, s₃) →
      ret ≠ G1ProcessStatus.noPktFmt.code

/-- The server finds the product of the device and the key of the packet. -/
theorem formatProvided_iff_serverReads (env : Env) {srv : Server} (honline : srv.status = .online)
    {s s₁ : EdgeState} {type : UInt32} {module : UInt64} {pkt : Buf} {size : UInt64} {dev : Dev}
    (hdev : s.gDevMap.get (pktOid type pkt size) = some dev)
    (hret : (s.edgeRcvPkt env type module pkt size).val =
      some (G1ProcessStatus.noPktFmt.code, s₁)) :
    s₁.FormatProvided env srv s.out type pkt size dev ↔
      serverReads (reportField env (UInt32.ofNat G1ProcessStatus.noPktFmt.code) module.toUInt32
        pkt size) = some (dev.pdt.topic, msgKey (pktMsg pkt size)) := by
  obtain ⟨dev₁, file, hmissing, hs₁⟩ := EdgeState.edgeRcvPkt_noPktFmt hret
  obtain rfl : dev = dev₁ := Option.some.inj (hdev.symm.trans hmissing.device)
  have hout : s₁.out = .server (pktReport env (UInt32.ofNat G1ProcessStatus.noPktFmt.code)
      module.toUInt32 pkt size.toUInt32) :: s.out := by
    rw [hs₁]
    rfl
  have hfmt : s₁.getG1Fmt dev.pdt.topic (msgKey (pktMsg pkt size)) = none := by
    rw [hs₁]
    exact hmissing.format
  have hdev₁ : ∃ dev', s₁.gDevMap.get (pktOid type pkt size) = some dev' ∧ dev'.pdt = dev.pdt := by
    have hoid : dev.oid = pktOid type pkt size := Registry.key_of_get hdev
    rw [hs₁, ← hoid]
    exact ⟨_, Registry.get_put_self _ _, rfl⟩
  clear hs₁
  rcases exchange_pktReport env honline (UInt32.ofNat G1ProcessStatus.noPktFmt.code)
    module.toUInt32 pkt size s₁ with
    ⟨hreads, hnone⟩ | ⟨topic, key, addr, msgs, hreads, hanswer, hrun⟩
  · rw [hreads]
    refine iff_of_false ?_ nofun
    rintro ⟨report, msgs, s₂, hout', hanswer, _⟩
    obtain rfl := Output.server.inj (List.cons.inj (hout.symm.trans hout')).1
    exact nomatch hnone.symm.trans hanswer
  · obtain ⟨hprovides, hfound⟩ := EdgeState.provides_provision s₁ topic key module.toUInt32 addr
    rw [hreads, Option.some.injEq, Prod.mk.injEq]
    constructor
    · rintro ⟨report, msgs', s₂, hout', hanswer', hrun', hget, _⟩
      obtain rfl := Output.server.inj (List.cons.inj (hout.symm.trans hout')).1
      obtain ⟨rfl, _⟩ := Prod.mk.inj (Option.some.inj (hanswer.symm.trans hanswer'))
      obtain rfl := Option.some.inj (hrun.symm.trans hrun')
      by_contra hne
      apply hget
      rw [hprovides.other _ _ fun htopic hkey => hne ⟨htopic.symm, hkey.symm⟩]
      exact hfmt
    · rintro ⟨rfl, rfl⟩
      refine ⟨_, msgs, _, hout, hanswer, hrun, hfound, fun module' ret s₃ hagain hret' => ?_⟩
      obtain ⟨dev', hdev', hptr⟩ := hdev₁
      obtain ⟨dev₂, _, hmissing₂, _⟩ := EdgeState.edgeRcvPkt_noPktFmt (hret' ▸ hagain)
      obtain rfl : dev' = dev₂ :=
        Option.some.inj ((hprovides.dev _ _ hdev').symm.trans hmissing₂.device)
      have hlost := hmissing₂.format
      rw [hptr] at hlost
      exact hfound hlost

/-- From a packet that has an address control, the server takes the first four
bytes of the address, in the order of the host, for the product. -/
theorem serverReads_reportField (env : Env) (status module : UInt32) {s : EdgeState}
    {type : UInt32} {pkt : Buf} {size : UInt64} {dev : Dev}
    (hmissing : s.FormatMissing type pkt size dev) (hsize : 2 ≤ size.toNat)
    (hsmall : size.toNat < 2 ^ 32) :
    serverReads (reportField env status module pkt size) =
      some (pkt.le32 2, msgKey (pktMsg pkt size)) := by
  obtain ⟨hl, hlt, hh1⟩ := pktAddress_accepted hmissing.accepted
  have hcomplete : 2 + (pktAddress pkt size).1 ≤ size.toNat := by
    rw [toNat_sub_two hsize] at hlt
    omega
  have hheader : HeaderComplete pkt size := by
    have hmsg := hmissing.header
    rw [toNat_pktMsgSize hcomplete] at hmsg
    unfold HeaderComplete g1MsgSize at *
    omega
  obtain ⟨haddress, htopic, _, hkey⟩ := reportField_address env status module hmissing.accepted
    hcomplete hsmall
  rw [serverReads, haddress, hh1, ← hl, Option.map_some, htopic, hkey hheader]

/-- For every state and every packet answered with `G1_STAT_NO_PKT_FMT`, the
format is provided where it is looked up precisely if the server takes the
product of the device and the key of the packet from the report; for a packet
that has an address control and a 32-bit length, precisely if the topic of that
product is the first word of the address. -/
theorem formatProvided_iff (env : Env) {srv : Server} (honline : srv.status = .online)
    {s s₁ : EdgeState} {type : UInt32} {module : UInt64} {pkt : Buf} {size : UInt64} {dev : Dev}
    (hdev : s.gDevMap.get (pktOid type pkt size) = some dev)
    (hret : (s.edgeRcvPkt env type module pkt size).val =
      some (G1ProcessStatus.noPktFmt.code, s₁)) :
    (s₁.FormatProvided env srv s.out type pkt size dev ↔
      serverReads (reportField env (UInt32.ofNat G1ProcessStatus.noPktFmt.code) module.toUInt32
        pkt size) = some (dev.pdt.topic, msgKey (pktMsg pkt size))) ∧
    (2 ≤ size.toNat → size.toNat < 2 ^ 32 →
      (s₁.FormatProvided env srv s.out type pkt size dev ↔ pkt.le32 2 = dev.pdt.topic)) := by
  have hiff := formatProvided_iff_serverReads env honline hdev hret
  refine ⟨hiff, fun hsize hsmall => ?_⟩
  obtain ⟨dev₁, _, hmissing, _⟩ := EdgeState.edgeRcvPkt_noPktFmt hret
  rw [hiff, serverReads_reportField env _ _ hmissing hsize hsmall, Option.some.injEq,
    Prod.mk.injEq, and_iff_left rfl]

/-- A device with the address `5, 0, 0, 0, 1, 1` of a product, without a format. -/
def missingFormatRun (topic : UInt32) : List Event :=
  [.command (.addProduct topic 1),
    .command (.addDevice (Buf.ofBytes ([5, 0, 0, 0] ++ List.replicate 60 1)) 6 0 0 topic)]

def missingFormatPkt : Buf := Buf.ofBytes [0, 0, 5, 0, 0, 0, 1, 1, 0, 0, 0, 7, 0, 1, 9]

/-- The device is registered, and its packet is answered with `G1_STAT_NO_PKT_FMT`. -/
theorem exists_missingFormat (topic : UInt32)
    (heval : (run (EdgeState.step Env.plain) (EdgeState.init [] fun _ => 0)
      (missingFormatRun topic)).map (fun s =>
        (((s.gDevMap.get (pktOid accessWloc missingFormatPkt 15)).map fun dev => dev.pdt.topic),
          (s.edgeRcvPkt Env.plain accessWloc 0 missingFormatPkt 15).val.map Prod.fst)) =
      some (some topic, some G1ProcessStatus.noPktFmt.code)) :
    ∃ s dev s₁,
      run (EdgeState.step Env.plain) (EdgeState.init [] fun _ => 0) (missingFormatRun topic) =
        some s ∧
      s.gDevMap.get (pktOid accessWloc missingFormatPkt 15) = some dev ∧ dev.pdt.topic = topic ∧
      (s.edgeRcvPkt Env.plain accessWloc 0 missingFormatPkt 15).val =
        some (G1ProcessStatus.noPktFmt.code, s₁) := by
  obtain ⟨s, hrun, hpair⟩ := Option.map_eq_some_iff.mp heval
  obtain ⟨hdev, hret⟩ := Prod.mk.inj hpair
  obtain ⟨dev, hget, htopic⟩ := Option.map_eq_some_iff.mp hdev
  obtain ⟨⟨ret, s₁⟩, hrcv, rfl⟩ := Option.map_eq_some_iff.mp hret
  exact ⟨s, dev, s₁, hrun, hget, htopic, hrcv⟩

theorem formatProvided_of_address :
    ∃ s dev s₁,
      run (EdgeState.step Env.plain) (EdgeState.init [] fun _ => 0) (missingFormatRun 5) =
        some s ∧
      s.gDevMap.get (pktOid accessWloc missingFormatPkt 15) = some dev ∧
      (s.edgeRcvPkt Env.plain accessWloc 0 missingFormatPkt 15).val =
        some (G1ProcessStatus.noPktFmt.code, s₁) ∧
      s₁.FormatProvided Env.plain Server.init s.out accessWloc missingFormatPkt 15 dev := by
  obtain ⟨s, dev, s₁, hrun, hdev, htopic, hret⟩ := exists_missingFormat 5 (by decide +kernel)
  have honline : Server.init.status = .online := rfl
  have hiff := (formatProvided_iff Env.plain honline hdev hret).2 (by decide) (by decide)
  exact ⟨s, dev, s₁, hrun, hdev, hret, hiff.mpr (htopic ▸ by decide)⟩

/-- The device belongs to the product 6, but the format is provided at 5. -/
theorem not_formatProvided_of_other_product :
    ∃ s dev s₁,
      run (EdgeState.step Env.plain) (EdgeState.init [] fun _ => 0) (missingFormatRun 6) =
        some s ∧
      s.gDevMap.get (pktOid accessWloc missingFormatPkt 15) = some dev ∧
      (s.edgeRcvPkt Env.plain accessWloc 0 missingFormatPkt 15).val =
        some (G1ProcessStatus.noPktFmt.code, s₁) ∧
      ¬ s₁.FormatProvided Env.plain Server.init s.out accessWloc missingFormatPkt 15 dev := by
  obtain ⟨s, dev, s₁, hrun, hdev, htopic, hret⟩ := exists_missingFormat 6 (by decide +kernel)
  refine ⟨s, dev, s₁, hrun, hdev, hret, ?_⟩
  rw [formatProvided_iff_serverReads Env.plain rfl hdev hret, htopic]
  decide +kernel

end EceLib
