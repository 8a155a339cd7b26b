import EceLib.Answer
import EceLib.Edge.Accesses

/-!
# Packets that are reported to the server

`edge_dp_rcv` passes a packet with a status other than zero on to the server.
The packet is copied into a field of 256 bytes, and its module and its length
are sent as words of 32 bits; the server takes these fields apart again.
-/

namespace EceLib

open Support

/-! ## What the server takes from a report -/

/-- The fields that the `EDGE_PRO_PKT` case of `rcv_edge_msg` takes from a
message. -/
structure EdgePkt where
  status : UInt32
  module : UInt32
  pkt : Buf
  len : UInt32

/-- The fields of a `struct edge_pkt`. -/
def EdgePkt.ofBuf (msg : Buf) : EdgePkt where
  status := msg.be32 0
  module := msg.be32 4
  pkt := (msg.drop 8).field edgePktSize
  len := msg.be32 (8 + edgePktSize)

/-- A message that is handled as a report, complete, and from which the server
takes a status, a module and a packet. -/
structure Recovers (msg : List UInt8) (status : ℕ) (module : UInt64) (pkt : Buf)
    (size : UInt64) : Prop where
  handled : EdgeProType.ofCode ((Buf.ofBytes msg).le32 0) = some .pkt
  complete : msg.length = tlvSize + (8 + edgePktSize + 4)
  status : (EdgePkt.ofBuf ((Buf.ofBytes msg).drop tlvSize)).status.toNat = status
  module : (EdgePkt.ofBuf ((Buf.ofBytes msg).drop tlvSize)).module.toNat = module.toNat
  len : (EdgePkt.ofBuf ((Buf.ofBytes msg).drop tlvSize)).len.toNat = size.toNat
  pkt : (EdgePkt.ofBuf ((Buf.ofBytes msg).drop tlvSize)).pkt.bytes 0 size.toNat =
    pkt.bytes 0 size.toNat

section Report

variable (env : Env) (status module : UInt32)

theorem length_edgePktBytes (data : List UInt8) (len : UInt32) :
    (edgePktBytes env status module data len).length = 8 + edgePktSize + 4 := by
  rw [edgePktBytes, length_overwrite]
  simp only [List.length_append, length_be32Bytes, List.length_map, List.length_range]

theorem edgePktBytes_status (data : List UInt8) (len : UInt32) :
    (Buf.ofBytes (edgePktBytes env status module data len)).be32 0 = status := by
  rw [edgePktBytes_eq]
  have hw : [status, module][0]? = some status := rfl
  exact Buf.be32_flatMap hw _

/-- A packet that fits its field leaves the length behind it alone. -/
theorem edgePktBytes_len (data : List UInt8) (hfits : data.length ≤ edgePktSize) (len : UInt32) :
    (Buf.ofBytes (edgePktBytes env status module data len)).be32 (8 + edgePktSize) = len := by
  have huninit : ((List.range edgePktSize).map env.uninit).length = edgePktSize := by
    rw [List.length_map, List.length_range]
  have hwrite := overwrite_append (l := []) (r := be32Bytes len) (huninit.symm ▸ hfits)
  simp only [List.nil_append, List.length_nil] at hwrite
  rw [edgePktBytes_eq, hwrite]
  generalize hfront : [status, module].flatMap be32Bytes ++
    (data ++ ((List.range edgePktSize).map env.uninit).drop data.length) = front
  have hlen : front.length = 8 + edgePktSize := by
    rw [← hfront]
    simp only [List.length_append, List.length_drop, huninit, List.flatMap_cons, List.flatMap_nil,
      length_be32Bytes, List.length_nil]
    omega
  have hassoc : [status, module].flatMap be32Bytes ++
      (data ++ (((List.range edgePktSize).map env.uninit).drop data.length ++ be32Bytes len)) =
        front ++ be32Bytes len := by
    rw [← hfront]
    simp only [List.append_assoc]
  rw [hassoc, ← hlen]
  exact (Buf.be32_append front (be32Bytes len) 0).trans (Buf.be32_be32Bytes len [])

/-- The server finds the packet in a report, if the packet fits the field. -/
theorem bytes_edgePktBytes {pkt : Buf} {n : ℕ} (hfits : n ≤ edgePktSize) (len : UInt32) :
    (EdgePkt.ofBuf (Buf.ofBytes (edgePktBytes env status module (pkt.bytes 0 n) len))).pkt.bytes
      0 n = pkt.bytes 0 n := by
  apply Buf.bytes_congr
  intro i hi
  rw [Nat.zero_add]
  exact edgePktBytes_mem hi (hi.trans_le hfits)

end Report

/-- The server takes the packet from the report on it exactly if its module and
its length are words of 32 bits. -/
theorem recovers_pktReport_iff (env : Env) {status : ℕ} (hstatus : status < 2 ^ 32)
    (module : UInt64) (pkt : Buf) {size : UInt64} (hfits : size.toUInt32.toNat ≤ edgePktSize) :
    Recovers (pktReport env (UInt32.ofNat status) module.toUInt32 pkt size.toUInt32) status module
        pkt size ↔
      size.toNat ≤ edgePktSize ∧ module.toNat < 2 ^ 32 := by
  have hlen := edgePktBytes_len env (UInt32.ofNat status) module.toUInt32
    (pkt.bytes 0 size.toUInt32.toNat) (by rwa [Buf.length_bytes]) size.toUInt32
  have hmodule := edgePktBytes_module env (UInt32.ofNat status) module.toUInt32 size.toUInt32
    (pkt.bytes 0 size.toUInt32.toNat)
  constructor
  · intro h
    have hsize := h.len
    have hmod := h.module
    rw [pktReport, tlvBytes_drop] at hsize hmod
    simp only [EdgePkt.ofBuf] at hsize hmod
    rw [hlen] at hsize
    rw [hmodule, UInt64.toNat_toUInt32] at hmod
    exact ⟨hsize ▸ hfits, by omega⟩
  · rintro ⟨hsize, hmod⟩
    have hword : size.toUInt32.toNat = size.toNat := by
      rw [UInt64.toNat_toUInt32]
      simp only [edgePktSize] at hsize
      omega
    refine ⟨?_, ?_, ?_, ?_, ?_, ?_⟩
    · rw [pktReport, le32_tlvBytes, EdgeProType.ofCode_code]
    · rw [pktReport, length_tlvBytes, length_edgePktBytes]
    · rw [pktReport, tlvBytes_drop]
      change ((Buf.ofBytes _).be32 0).toNat = status
      rw [edgePktBytes_status, UInt32.toNat_ofNat_of_lt' hstatus]
    · rw [pktReport, tlvBytes_drop]
      change ((Buf.ofBytes _).be32 4).toNat = module.toNat
      rw [hmodule, UInt64.toNat_toUInt32, Nat.mod_eq_of_lt hmod]
    · rw [pktReport, tlvBytes_drop]
      change ((Buf.ofBytes _).be32 (8 + edgePktSize)).toNat = size.toNat
      rw [hlen, hword]
    · rw [pktReport, tlvBytes_drop, hword]
      exact bytes_edgePktBytes env _ _ hsize _

/-! ## Receptions that are reported -/

/-- An access to the packet field of a report is inside of it. -/
def EdgePktInBounds (a : Access Buffer) : Prop := a.buf = .edgePkt → a.InBounds

theorem onlyOf_edgePktInBounds : OnlyOf [.edgePkt] EdgePktInBounds :=
  fun _ ha hbuf => absurd (List.mem_singleton.mpr hbuf) ha

namespace EdgeState

/-- The address of a packet is accepted and printed, but its device is not
known, or the product of the device has no format for the key of the message. -/
structure Unknown (s : EdgeState) (type : UInt32) (pkt : Buf) (size : UInt64) : Prop where
  accepted : (pktAddress pkt size).1 ≠ 0
  levels : ¬ (pktAddress pkt size).2.Gap
  missing : ∀ dev, s.gDevMap.get (pktOid type pkt size) = some dev →
    s.FormatMissing type pkt size dev

theorem Unknown.congr {s₁ s₂ : EdgeState} {type : UInt32} {pkt : Buf} {size : UInt64}
    (h : s₁.Unknown type pkt size) (hdevs : s₂.gDevMap = s₁.gDevMap)
    (hpdts : s₂.gPdtMap = s₁.gPdtMap) : s₂.Unknown type pkt size := by
  refine ⟨h.accepted, h.levels, fun dev hdev => ?_⟩
  obtain ⟨_, hheader, _, hproduct, hformat⟩ := h.missing dev (hdevs ▸ hdev)
  refine ⟨h.accepted, hheader, hdev, ?_, ?_⟩
  · rw [deref, hpdts]
    exact hproduct
  · rw [getG1Fmt, getPdt, hpdts]
    exact hformat

/-- A status other than zero of `parse_g1_pkt` is given to unknown packets, and
nothing has been sent. -/
theorem parseG1Pkt_ne_zero {env : Env} {s s' : EdgeState} {type : UInt32} {pkt : Buf}
    {size : UInt64} {ret : ℕ} (hret : ret ≠ 0)
    (h : (s.parseG1Pkt env type pkt size).val = some (ret, s')) :
    s.Unknown type pkt size ∧ ret < 2 ^ 32 ∧ s'.out = s.out := by
  rw [val_parseG1Pkt] at h
  by_cases haccepted : (pktAddress pkt size).1 = 0
  · rw [if_pos haccepted] at h
    cases h
    exact absurd rfl hret
  · rw [if_neg haccepted] at h
    by_cases hgap : (pktAddress pkt size).2.Gap
    · rw [if_pos hgap] at h
      cases h
    · rw [if_neg hgap] at h
      cases hdev : s.gDevMap.get (pktOid type pkt size) with
      | none =>
          simp only [hdev] at h
          cases h
          exact ⟨⟨haccepted, hgap, fun dev hget => by rw [hdev] at hget; cases hget⟩,
            by decide, rfl⟩
      | some dev =>
          simp only [hdev] at h
          rcases parseMsg_ne_noDevice h with rfl | rfl
          · exact absurd rfl hret
          · obtain ⟨hheader, hproduct, hformat, rfl⟩ := parseMsg_noPktFmt h
            refine ⟨⟨haccepted, hgap, fun dev' hget => ?_⟩, by decide, rfl⟩
            obtain rfl : dev = dev' := Option.some.inj (hdev.symm.trans hget)
            exact ⟨haccepted, hheader, hdev, hproduct, hformat⟩

/-- An unknown packet is given a status other than zero. -/
theorem parseG1Pkt_of_unknown (env : Env) {s : EdgeState} {type : UInt32} {pkt : Buf}
    {size : UInt64} (h : s.Unknown type pkt size) :
    ∃ ret s', (s.parseG1Pkt env type pkt size).val = some (ret, s') ∧ ret ≠ 0 ∧
      ret ≠ G1ProcessStatus.rawPkt.code := by
  rw [val_parseG1Pkt, if_neg h.accepted, if_neg h.levels]
  cases hdev : s.gDevMap.get (pktOid type pkt size) with
  | none => exact ⟨_, s, rfl, by decide, by decide⟩
  | some dev =>
      obtain ⟨_, hheader, _, hproduct, hformat⟩ := h.missing dev hdev
      obtain ⟨pdt, hpdt⟩ := Option.ne_none_iff_exists'.mp hproduct
      obtain ⟨_, hptr⟩ := deref_eq_some_iff.mp hpdt
      have htopic : pdt.topic = dev.pdt.topic := congrArg PdtPtr.topic hptr
      rw [← htopic] at hformat
      have hlive : (s.freshDev dev).1.deref (s.freshDev dev).2.pdt = some pdt := hpdt
      have hfmts : (s.freshDev dev).1.getG1Fmt pdt.topic (msgKey (pktMsg pkt size)) = none :=
        hformat
      refine ⟨G1ProcessStatus.noPktFmt.code, (s.freshDev dev).1, ?_, by decide, by decide⟩
      simp only [val_parseMsg, if_neg (Nat.not_lt.mpr hheader), hlive, hfmts, Option.bind_some]

/-- What is sent for a packet that ends in a status other than zero. -/
theorem edgeRcvPkt_reported {env : Env} {s s' : EdgeState} {type : UInt32} {module : UInt64}
    {pkt : Buf} {size : UInt64} {ret : ℕ} (hon : s.ctl.function = edgeFuncOn) (hsize : size ≠ 0)
    (hret : ret ≠ 0) (hraw : ret ≠ G1ProcessStatus.rawPkt.code)
    (h : (s.edgeRcvPkt env type module pkt size).val = some (ret, s')) :
    s.Unknown type pkt size ∧ ret < 2 ^ 32 ∧
      s'.out = .server (pktReport env (UInt32.ofNat ret) module.toUInt32 pkt size.toUInt32) ::
        s.out := by
  obtain ⟨file, s₁, hparse, rfl⟩ := edgeRcvPkt_passedOn hon hsize hret hraw h
  obtain ⟨hknown, hlt, hout⟩ := parseG1Pkt_ne_zero hret hparse
  refine ⟨hknown.congr rfl rfl, hlt, ?_⟩
  rw [mgtSendMsg, hout]
  rfl

/-- An unknown packet ends in such a status. -/
theorem edgeRcvPkt_of_unknown (env : Env) {s : EdgeState} {type : UInt32} (module : UInt64)
    {pkt : Buf} {size : UInt64} (hon : s.ctl.function = edgeFuncOn) (hsize : size ≠ 0)
    (h : s.Unknown type pkt size) :
    ∃ ret s', (s.edgeRcvPkt env type module pkt size).val = some (ret, s') ∧ ret ≠ 0 ∧
      ret ≠ G1ProcessStatus.rawPkt.code := by
  obtain ⟨file, hfile⟩ := received_eq env s type module pkt size
  have hknown : (s.received env type module pkt size).Unknown type pkt size := by
    rw [hfile]
    exact h.congr rfl rfl
  obtain ⟨ret, s₁, hparse, hret, hraw⟩ := parseG1Pkt_of_unknown env hknown
  refine ⟨ret, (answer env module pkt size (ret, s₁)).2, ?_, hret, hraw⟩
  rw [val_edgeRcvPkt env type module pkt hon hsize, hparse, Option.map_some]
  simp only [answer, ne_eq, hret, not_false_eq_true, if_true]

/-- A packet that ends in a status other than zero, and is not a raw packet for
the caller, is reported: the message is built inside its fields, and the server
takes the status, the module and the packet from it. -/
def ReportPreserves (env : Env) (s : EdgeState) (type : UInt32) (module : UInt64) (pkt : Buf)
    (size : UInt64) : Prop :=
  (s.edgeRcvPkt env type module pkt size).Each EdgePktInBounds ∧
    ∀ ret s', (s.edgeRcvPkt env type module pkt size).val = some (ret, s') →
      s.ctl.function = edgeFuncOn → size ≠ 0 → ret ≠ 0 → ret ≠ G1ProcessStatus.rawPkt.code →
        ∃ msg, s'.out = .server msg :: s.out ∧ Recovers msg ret module pkt size

/-- Only the copy of a reported packet goes to the packet field. -/
theorem each_edgePktInBounds_iff (env : Env) (s : EdgeState) (type : UInt32) (module : UInt64)
    (pkt : Buf) (size : UInt64) :
    (s.edgeRcvPkt env type module pkt size).Each EdgePktInBounds ↔
      (s.ctl.function = edgeFuncOn → size ≠ 0 → s.Unknown type pkt size →
        size.toUInt32.toNat ≤ edgePktSize) := by
  obtain ⟨file, hfile⟩ := received_eq env s type module pkt size
  have hunknown : (s.received env type module pkt size).Unknown type pkt size ↔
      s.Unknown type pkt size := by
    rw [hfile]
    exact ⟨fun h => h.congr rfl rfl, fun h => h.congr rfl rfl⟩
  rw [each_edgeRcvPkt_iff]
  constructor
  · intro h hon hsize hknown
    obtain ⟨ret, s', hval, hret, _⟩ := parseG1Pkt_of_unknown env (hunknown.mpr hknown)
    have hin := (h hon hsize).2 _ hval hret
    have hbound : 0 + size.toUInt32.toNat ≤ edgePktSize := hin.2 rfl
    omega
  · intro h hon hsize
    refine ⟨?_, fun r hval hret => ⟨onlyOf_edgePktInBounds _ (by simp), fun _ => ?_⟩⟩
    · rw [each_parseG1Pkt_iff]
      refine ⟨onlyOf_edgePktInBounds _ (by simp), fun _ =>
        ⟨onlyOf_edgePktInBounds.each (touches_logLevels _ _) (by simp), fun _ =>
          ⟨onlyOf_edgePktInBounds.each (touches_getDev _ _ _ _) (by simp), fun dev _ => ?_⟩⟩⟩
      rw [each_parseMsg_iff]
      exact fun _ => ⟨onlyOf_edgePktInBounds _ (by simp), onlyOf_edgePktInBounds _ (by simp),
        onlyOf_edgePktInBounds _ (by simp), fun pdt _ fmt _ =>
          ⟨onlyOf_edgePktInBounds.each (touches_tokenLoop _ _ _ _ _) (by simp), fun r _ =>
            onlyOf_edgePktInBounds.each (touches_checkRuleEngine env _ _) (by simp)⟩⟩
    · obtain ⟨hknown, _⟩ := parseG1Pkt_ne_zero hret hval
      have hbound := h hon hsize (hunknown.mp hknown)
      change 0 + size.toUInt32.toNat ≤ edgePktSize
      omega

/-- In every state and for every packet, the report preserves the packet exactly
if it has at most 256 bytes and its module is a word of 32 bits, whenever the
packet is unknown. -/
theorem reportPreserves_iff (env : Env) (s : EdgeState) (type : UInt32) (module : UInt64)
    (pkt : Buf) (size : UInt64) :
    s.ReportPreserves env type module pkt size ↔
      (s.ctl.function = edgeFuncOn → size ≠ 0 → s.Unknown type pkt size →
        size.toNat ≤ edgePktSize ∧ module.toNat < 2 ^ 32) := by
  unfold ReportPreserves
  rw [each_edgePktInBounds_iff]
  constructor
  · rintro ⟨hfits, hrecovers⟩ hon hsize hknown
    obtain ⟨ret, s', hval, hret, hraw⟩ := edgeRcvPkt_of_unknown env module hon hsize hknown
    obtain ⟨msg, hmsg, hrec⟩ := hrecovers ret s' hval hon hsize hret hraw
    obtain ⟨_, hlt, hout⟩ := edgeRcvPkt_reported hon hsize hret hraw hval
    obtain rfl := Output.server.inj (List.cons.inj (hmsg.symm.trans hout)).1
    exact (recovers_pktReport_iff env hlt module pkt (hfits hon hsize hknown)).mp hrec
  · intro h
    have hfits : size.toNat ≤ edgePktSize → size.toUInt32.toNat ≤ edgePktSize := fun hle =>
      (UInt64.toNat_toUInt32 size ▸ Nat.mod_le _ _).trans hle
    refine ⟨fun hon hsize hknown => hfits (h hon hsize hknown).1,
      fun ret s' hval hon hsize hret hraw => ?_⟩
    obtain ⟨hknown, hlt, hout⟩ := edgeRcvPkt_reported hon hsize hret hraw hval
    have hbounds := h hon hsize hknown
    exact ⟨_, hout, (recovers_pktReport_iff env hlt module pkt (hfits hbounds.1)).mpr hbounds⟩

end EdgeState

/-- A packet of 300 bytes for an edge that has no device. -/
theorem reportPreserves_fails_of_long_packet :
    ¬ ∀ (env : Env) (s : EdgeState) (type : UInt32) (module : UInt64) (pkt : Buf) (size : UInt64),
      s.ReportPreserves env type module pkt size := by
  intro h
  have hnone : ∀ oid, (EdgeState.init [] fun _ => 0).gDevMap.get oid = none := fun oid => by
    simp [EdgeState.init]
  have hbounds := (EdgeState.reportPreserves_iff Env.plain (EdgeState.init [] fun _ => 0) 0 0
    (Buf.ofBytes (List.replicate 300 0)) 300).mp (h _ _ _ _ _ _) rfl (by decide)
      { accepted := by decide +kernel
        levels := by decide +kernel
        missing := fun dev hdev => by
          rw [hnone] at hdev
          cases hdev }
  exact absurd hbounds.1 (by decide)

end EceLib
