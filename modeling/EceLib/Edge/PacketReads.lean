import EceLib.Edge.AddressLevels
import EceLib.Edge.Payload

/-!
# What a reception reads of a packet

The length that is left is compared before the address and before the header of
the message, but not before the header of the packet: of a packet of one byte
the control byte is read, and what is left of it is taken for very much.  All
other reads stay inside the packet, as long as no level of the address is read
through a null pointer.
-/

namespace EceLib

open Support

/-- What a reception reads as a header, as a level of the address or as payload
lies in the packet, and a packet too short for what its control byte announces
is dropped: no payload is used and no value of a device changes. -/
structure ReadsPacketOnly (env : Env) (s : EdgeState) (type : UInt32) (module : UInt64)
    (pkt : Buf) (size : UInt64) : Prop where
  inBounds : (s.edgeRcvPkt env type module pkt size).Each fun a =>
    a.buf = .pkt ∨ a.buf = .addr → a.InBounds
  levels : s.ctl.function = edgeFuncOn → (pktAddress pkt size).1 ≠ 0 →
    LevelsValid pkt (pktAddress pkt size).2
  rejected : size.toNat < 2 + ctrlLen (pkt.mem 1) + g1MsgSize →
    ((s.edgeRcvPkt env type module pkt size).Each fun a => a.buf ≠ .payload) ∧
    ∃ ret s', (s.edgeRcvPkt env type module pkt size).val = some (ret, s') ∧
      ∀ oid, (s'.gDevMap.get oid).map Dev.values = (s.gDevMap.get oid).map Dev.values

/-- Packets of at least two bytes, without a gap in an address that is accepted. -/
def ReadableSize (pkt : Buf) : Prop :=
  2 ≤ pkt.size ∧ ¬ (KnownFormat (pkt.mem 1) ∧ ctrlLen (pkt.mem 1) < pkt.size - 2 ∧
    CtrlGap (pkt.mem 1))

instance (pkt : Buf) : Decidable (ReadableSize pkt) := inferInstanceAs (Decidable (_ ∧ _))

/-! ## Reads inside the packet -/

/-- An access to the packet is inside of it. -/
def PktInBounds (a : Access Buffer) : Prop := a.buf = .pkt ∨ a.buf = .addr → a.InBounds

theorem onlyOf_pktInBounds : OnlyOf [.pkt, .addr] PktInBounds :=
  fun _ ha hbuf => absurd (by simpa using hbuf) ha

theorem pktInBounds_log (n : ℕ) : PktInBounds ⟨.log, 0, n, logSize⟩ := by simp [PktInBounds]

/-- A level in the packet is printed from the packet. -/
theorem pktInBounds_logAddr {pkt : Buf} {h : Option ℕ} {len : ℕ}
    (hvalid : ∃ pos, h = some pos ∧ pos + len ≤ pkt.size) :
    (EdgeState.logAddr pkt h len).Each PktInBounds := by
  obtain ⟨pos, rfl, hpos⟩ := hvalid
  simp only [EdgeState.logAddr, Traced.each_touch_bind, Traced.each_touch]
  exact ⟨fun _ => hpos, pktInBounds_log _⟩

theorem pktInBounds_logLevels {pkt : Buf} {addrCtrl : UInt8} {addr : ℕ}
    (hknown : KnownFormat addrCtrl) (hvalid : LevelsValid pkt (ctrlInfo addrCtrl addr)) :
    (EdgeState.logLevels pkt (ctrlInfo addrCtrl addr)).Each PktInBounds := by
  refine each_logLevels (pktInBounds_logAddr ?_) (fun hne => pktInBounds_logAddr ?_)
    fun hne => pktInBounds_logAddr ?_
  · exact hvalid (_, _) (by simp [PktInfo.levels]) (ctrlH1Len_pos hknown).ne'
  · exact hvalid (_, _) (by simp [PktInfo.levels]) hne
  · exact hvalid (_, _) (by simp [PktInfo.levels]) hne

/-- The address of an accepted packet, and what is left for the message. -/
theorem ReadableSize.accepted {pkt : Buf} {size : UInt64} (h : ReadableSize pkt)
    (hsize : size.toNat = pkt.size) (hl : (pktAddress pkt size).1 ≠ 0) :
    ¬ CtrlGap (pkt.mem 1) ∧ 2 + ctrlLen (pkt.mem 1) < pkt.size ∧
      (pktMsgSize pkt size).toNat = pkt.size - (2 + ctrlLen (pkt.mem 1)) := by
  obtain ⟨htwo, hgap⟩ := h
  obtain ⟨hknown, hlt⟩ := pktAddress_ne_zero_iff.mp hl
  rw [toNat_sub_two (by omega), hsize] at hlt
  have haddr := pktAddress_of_ne_zero hl
  have hmsg : (pktMsgSize pkt size).toNat = size.toNat - (2 + (pktAddress pkt size).1) :=
    toNat_pktMsgSize (by rw [haddr]; omega)
  rw [haddr, hsize] at hmsg
  exact ⟨fun h => hgap ⟨hknown, hlt, h⟩, by omega, hmsg⟩

/-- What the steps up to the message read. -/
theorem ReadableSize.inBounds {pkt : Buf} {size : UInt64} (h : ReadableSize pkt)
    (hsize : size.toNat = pkt.size) (env : Env) (s : EdgeState) (type : UInt32)
    (module : UInt64) : (s.edgeRcvPkt env type module pkt size).Each PktInBounds := by
  rw [each_edgeRcvPkt_iff]
  intro _ _
  refine ⟨?_, fun r _ _ => ⟨fun _ => ?_, by simp [PktInBounds]⟩⟩
  · rw [each_parseG1Pkt_iff]
    refine ⟨fun _ => by simpa [Access.InBounds] using h.1, fun hl => ?_⟩
    obtain ⟨hgap, hlen, hmsg⟩ := h.accepted hsize hl
    have hknown := (pktAddress_ne_zero_iff.mp hl).1
    have haddr := pktAddress_of_ne_zero hl
    refine ⟨?_, fun _ => ⟨?_, fun dev _ => ?_⟩⟩
    · rw [haddr]
      exact pktInBounds_logLevels hknown (levelsValid_ctrlInfo hgap (by omega))
    · rw [haddr]
      have haddrLen : 0 + ctrlLen (pkt.mem 1) ≤ (pkt.drop 2).size := by
        rw [Buf.drop_size]
        omega
      simp only [EdgeState.getDev, getDevOid, Traced.each_bind, Traced.each_touch,
        Traced.each_pure, implies_true, and_true]
      exact ⟨fun _ => haddrLen, fun _ _ => by simp [PktInBounds]⟩
    · rw [each_parseMsg_iff]
      intro hheader
      rw [hmsg] at hheader
      have hpkt : (pktMsg pkt size).size = pkt.size - (2 + ctrlLen (pkt.mem 1)) := by
        rw [pktMsg, haddr]
        rfl
      have hpayload : msgPayloadLen (pktMsg pkt size) (pktMsgSize pkt size) ≤
          pkt.size - (2 + ctrlLen (pkt.mem 1)) - g1MsgSize := by
        rw [msgPayloadLen, hmsg]
        exact min_le_right _ _
      refine ⟨fun _ => ?_, fun _ => ?_, pktInBounds_log _, fun pdt _ fmt _ => ⟨?_, fun r _ => ?_⟩⟩
      · simp only [Access.InBounds, hpkt]
        omega
      · simp only [Access.InBounds, hpkt]
        omega
      · exact onlyOf_pktInBounds.each (touches_tokenLoop _ _ _ _ _) (by decide)
      · exact onlyOf_pktInBounds.each (touches_checkRuleEngine _ _ _) (by decide)
  · have hle : size.toUInt32.toNat ≤ size.toNat := by
      rw [UInt64.toNat_toUInt32]
      exact Nat.mod_le _ _
    simp only [Access.InBounds]
    omega

/-! ## Packets that are too short -/

/-- Without enough bytes for the header of the message the payload is not used. -/
theorem payload_unused_of_short {pkt : Buf} {size : UInt64} (h : ReadableSize pkt)
    (hsize : size.toNat = pkt.size) (hshort : size.toNat < 2 + ctrlLen (pkt.mem 1) + g1MsgSize)
    (env : Env) (s : EdgeState) (type : UInt32) (module : UInt64) :
    (s.edgeRcvPkt env type module pkt size).Each fun a => a.buf ≠ .payload := by
  have hunused : ∀ {α : Type} {bufs : List Buffer} {x : Traced Buffer α}, Touches bufs x →
      Buffer.payload ∉ bufs → x.Each fun a => a.buf ≠ .payload := fun htouches hnot =>
    htouches.each fun a ha heq => hnot (heq ▸ ha)
  rw [each_edgeRcvPkt_iff]
  intro _ _
  refine ⟨?_, fun r _ _ => ⟨by simp, by simp⟩⟩
  rw [each_parseG1Pkt_iff]
  refine ⟨by simp, fun hl => ⟨hunused (touches_logLevels _ _) (by simp), fun _ =>
    ⟨hunused (touches_getDev _ _ _ _) (by simp), fun dev _ => ?_⟩⟩⟩
  rw [each_parseMsg_iff]
  intro hheader
  obtain ⟨_, hlen, hmsg⟩ := h.accepted hsize hl
  omega

/-- Nor do the values of a device change. -/
theorem values_of_short {pkt : Buf} {size : UInt64} (h : ReadableSize pkt)
    (hsize : size.toNat = pkt.size) (hshort : size.toNat < 2 + ctrlLen (pkt.mem 1) + g1MsgSize)
    (env : Env) (s : EdgeState) (type : UInt32) (module : UInt64) :
    ∃ ret s', (s.edgeRcvPkt env type module pkt size).val = some (ret, s') ∧
      ∀ oid, (s'.gDevMap.get oid).map Dev.values = (s.gDevMap.get oid).map Dev.values := by
  have hmsg : (pktAddress pkt size).1 ≠ 0 → (pktMsgSize pkt size).toNat < g1MsgSize := by
    intro hl
    obtain ⟨_, hlen, hmsg⟩ := h.accepted hsize hl
    omega
  have hnot : ∀ fmt, ¬ s.Delivered type pkt size fmt := by
    intro fmt hdelivered
    exact absurd hdelivered.header (Nat.not_le.mpr (hmsg hdelivered.accepted))
  have hsome : (s.edgeRcvPkt env type module pkt size).val.isSome := by
    by_cases hon : s.ctl.function = edgeFuncOn
    · have hne : size ≠ 0 := by
        rintro rfl
        have htwo := h.1
        rw [← hsize] at htwo
        exact absurd htwo (by decide)
      rw [EdgeState.val_edgeRcvPkt env type module pkt hon hne, Option.isSome_map,
        EdgeState.val_parseG1Pkt]
      by_cases hl : (pktAddress pkt size).1 = 0
      · rw [if_pos hl]
        rfl
      · have hgap : ¬ (pktAddress pkt size).2.Gap := by
          rw [pktAddress_of_ne_zero hl]
          exact (h.accepted hsize hl).1
        rw [if_neg hl, if_neg hgap]
        cases (s.received env type module pkt size).gDevMap.get (pktOid type pkt size) with
        | none => rfl
        | some dev =>
            simp only [EdgeState.val_parseMsg, if_pos (hmsg hl), Option.isSome_some]
    · simp [EdgeState.edgeRcvPkt, hon]
  obtain ⟨⟨ret, s'⟩, hval⟩ := Option.isSome_iff_exists.mp hsome
  exact ⟨ret, s', hval, EdgeState.values_edgeRcvPkt hnot hval⟩

/-- A reception reads only the packet, precisely if the packet has the two bytes
of its header and no gap in its address, or nothing is received at all. -/
theorem readsPacketOnly_iff (env : Env) (s : EdgeState) (type : UInt32) (module : UInt64)
    {pkt : Buf} {size : UInt64} (hsize : size.toNat = pkt.size) (hpos : 1 ≤ pkt.size) :
    ReadsPacketOnly env s type module pkt size ↔
      s.ctl.function ≠ edgeFuncOn ∨ ReadableSize pkt := by
  have hne : size ≠ 0 := by
    rintro rfl
    rw [← hsize] at hpos
    exact absurd hpos (by decide)
  constructor
  · intro h
    by_cases hon : s.ctl.function = edgeFuncOn
    · refine Or.inr ?_
      have hparse := ((each_edgeRcvPkt_iff _ _ _ _ _ _).mp h.inBounds hon hne).1
      have htwo : 0 + 2 ≤ pkt.size := ((each_parseG1Pkt_iff _ _ _ _ _).mp hparse).1 (Or.inl rfl)
      refine ⟨by omega, fun ⟨hknown, hlen, hgap⟩ => ?_⟩
      have hl : (pktAddress pkt size).1 ≠ 0 := pktAddress_ne_zero_iff.mpr
        ⟨hknown, by rwa [toNat_sub_two (by omega), hsize]⟩
      have hvalid := h.levels hon hl
      rw [pktAddress_of_ne_zero hl] at hvalid
      exact not_levelsValid_ctrlInfo hgap hvalid
    · exact Or.inl hon
  · rintro (hoff | hread)
    · have hoff_eq : s.edgeRcvPkt env type module pkt size = pure (1, s) := if_pos hoff
      refine ⟨?_, fun hon => absurd hon hoff, fun _ => ⟨?_, 1, s, ?_, fun _ => rfl⟩⟩
      · rw [hoff_eq]
        exact Traced.each_pure _
      · rw [hoff_eq]
        exact Traced.each_pure _
      · rw [hoff_eq]
        rfl
    · refine ⟨hread.inBounds hsize env s type module, fun _ hl => ?_, fun hshort =>
        ⟨payload_unused_of_short hread hsize hshort env s type module,
          values_of_short hread hsize hshort env s type module⟩⟩
      obtain ⟨hgap, hlen, _⟩ := hread.accepted hsize hl
      rw [pktAddress_of_ne_zero hl]
      exact levelsValid_ctrlInfo hgap (by omega)

/-- Three levels and the header of a message. -/
theorem readsPacketOnly_levelsPkt :
    ReadsPacketOnly Env.plain (EdgeState.init [] fun _ => 0) 0 0 (Buf.ofBytes (levelsPkt 0x14))
      18 :=
  (readsPacketOnly_iff Env.plain (EdgeState.init [] fun _ => 0) 0 0 (by decide +kernel)
    (by decide +kernel)).mpr (Or.inr (by decide +kernel))

/-- Of a packet of one byte two are read. -/
theorem readsPacketOnly_fails_of_one_byte :
    ¬ ∀ (env : Env) (s : EdgeState) (type : UInt32) (module : UInt64) (bytes : List UInt8),
      1 ≤ bytes.length → bytes.length < 2 ^ 64 →
        ReadsPacketOnly env s type module (Buf.ofBytes bytes) (UInt64.ofNat bytes.length) := by
  intro h
  have hreads := (h Env.plain (EdgeState.init [] fun _ => 0) 0 0 [0] (by decide)
    (by decide)).inBounds
  have hparse := ((each_edgeRcvPkt_iff _ _ _ _ _ _).mp hreads rfl (by decide)).1
  have htwo : 0 + 2 ≤ (Buf.ofBytes [0]).size :=
    ((each_parseG1Pkt_iff _ _ _ _ _).mp hparse).1 (Or.inl rfl)
  exact absurd htwo (by decide)

end EceLib
