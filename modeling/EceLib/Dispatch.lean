import EceLib.Server
import EceLib.Edge.AddressLevels
import EceLib.Edge.System

/-!
# Dispatch of arbitrary messages

Both ends look at the type word of a message before anything else: it is the
index of the name that is printed.  The edge then checks the length of each
body that it reads; the server checks none, and works on the address in a
Packet also where its control byte is refused.
-/

namespace EceLib

open Support

/-! ## Types and layouts -/

/-- The size of the fixed layout of a message body.  The edge has no handler for
a Hello and a Packet, and the server has one for nothing else. -/
def EdgeProType.layoutSize : EdgeProType → ℕ
  | hello => mgtControlSize + 14
  | pkt => 8 + edgePktSize + 4
  | pro => pro.bodySize.getD 0

theorem EdgeProType.layoutSize_of_bodySize {pro : EdgeProType} {size : ℕ}
    (h : pro.bodySize = some size) : pro.layoutSize = size := by
  cases pro <;> cases h <;> rfl

theorem EdgeProType.code_lt (pro : EdgeProType) : pro.code.toNat < edgeProButt := by
  cases pro <;> decide

/-- The types are the words below `EDGE_PRO_BUTT`. -/
theorem EdgeProType.isSome_ofCode_iff (type : UInt32) :
    (ofCode type).isSome ↔ type.toNat < edgeProButt := by
  constructor
  · intro h
    obtain ⟨pro, hpro⟩ := Option.isSome_iff_exists.mp h
    have hcode : pro.code = type := by simpa using List.find?_some hpro
    rw [← hcode]
    exact code_lt pro
  · intro h
    have hall : ∀ n < edgeProButt, (ofCode (UInt32.ofNat n)).isSome := by decide
    rw [← UInt32.ofNat_toNat (x := type)]
    exact hall _ h

/-- The word `tlv->type` of a message. -/
def typeWord (bytes : List UInt8) : UInt32 := (Buf.ofBytes bytes).le32 0

/-- The message ends before its header or its body does. -/
def TooShort (bytes : List UInt8) : Prop :=
  bytes.length < tlvSize ∨
    ∃ pro, EdgeProType.ofCode (typeWord bytes) = some pro ∧
      bytes.length < tlvSize + pro.layoutSize

/-- The message has a header, with a type that does not exist. -/
def UnknownType (bytes : List UInt8) : Prop :=
  tlvSize ≤ bytes.length ∧ EdgeProType.ofCode (typeWord bytes) = none

/-! ## The two dispatchers -/

/-- An access to the message or to the table of message names stays inside it. -/
def InMessage (a : Access Buffer) : Prop := a.buf ∈ [Buffer.msg, Buffer.edgeMsg] → a.InBounds

/-- The edge looks at its table and at the message only where they have
something.  It comes back, at the latest when the call for the command does, and
a message that is too short or of unknown type is ignored. -/
structure EdgeState.DispatchBounded (s : EdgeState) (bytes : List UInt8) : Prop where
  reads : (s.mgtRcvMsg (Buf.ofBytes bytes) bytes.length).Each InMessage
  returns : (∀ c, decodeCommand (Buf.ofBytes bytes) bytes.length = some c →
      ∀ t, (c.exec { s with stat := { s.stat with timeout := t } }).val.isSome) →
    (s.mgtRcvMsg (Buf.ofBytes bytes) bytes.length).val.isSome
  ignored : TooShort bytes ∨ UnknownType bytes →
    ∃ ret t, (s.mgtRcvMsg (Buf.ofBytes bytes) bytes.length).val =
      some (ret, { s with stat := { s.stat with timeout := t } })

/-- The same of the server, which has nothing but its control block and calls
nothing but its own encoders. -/
structure Server.DispatchBounded (srv : Server) (bytes : List UInt8) : Prop where
  reads : (srv.rcvEdgeMsg (Buf.ofBytes bytes) bytes.length).Each InMessage
  returns : (srv.rcvEdgeMsg (Buf.ofBytes bytes) bytes.length).val.isSome
  ignored : TooShort bytes ∨ UnknownType bytes →
    ∀ msgs srv', (srv.rcvEdgeMsg (Buf.ofBytes bytes) bytes.length).val = some (msgs, srv') →
      srv' = { srv with clientStat := srv'.clientStat }

/-- A command works on its own fields and not on the message any more. -/
theorem inMessage_exec (s : EdgeState) (c : Command) : (c.exec s).Each InMessage := by
  have hoid : ∀ (type : UInt32) (addr : Buf) (len : ℕ),
      (getDevOid type addr len).Each InMessage := by
    intro type addr len
    simp [getDevOid, Traced.each_touch_bind, InMessage]
  cases c with
  | addPacketFormat pkt pktLen topic key size offset len =>
      simp only [Command.exec, addG1Fmt]
      cases s.getPdt topic with
      | none => simp
      | some pdt => simp [Traced.each_touch_bind, Traced.each_require_bind, InMessage]
  | addDevice addr len linkType module topic =>
      simp only [Command.exec, EdgeState.addDev]
      by_cases hargs : len.toNat = 0 ∨ topic = 0
      · simp [hargs, Traced.each_bind]
      · simp only [hargs, if_false]
        cases s.getPdt topic <;> simp [Traced.each_bind, hoid]
  | delDevice addr len linkType =>
      simp only [Command.exec, EdgeState.delDev, EdgeState.getDev]
      by_cases hlen : len.toNat = 0
      · simp [hlen]
      · simp only [hlen, if_false, Traced.each_bind, hoid, Traced.each_pure, implies_true,
          and_true, true_and]
        intro dev _
        cases dev <;> simp
  | _ => exact Traced.each_pure _

/-- The header is read when there is one. -/
theorem inMessage_header {bytes : List UInt8} (h : tlvSize ≤ bytes.length) :
    InMessage ⟨.msg, 0, tlvSize, (Buf.ofBytes bytes).size⟩ := by
  intro _
  simpa [Access.InBounds] using h

/-- The name of a message is in the table just for the types that exist. -/
theorem inMessage_name_iff (type : UInt32) :
    InMessage ⟨.edgeMsg, type.toNat, 1, edgeProButt⟩ ↔ type.toNat < edgeProButt := by
  have htable : Buffer.edgeMsg ∈ [Buffer.msg, Buffer.edgeMsg] := by simp
  exact ⟨fun h => h htable, fun h _ => h⟩

namespace EdgeState

/-- The edge ignores what is too short or of unknown type, whatever it prints
on the way. -/
theorem mgtRcvMsg_ignored (s : EdgeState) {bytes : List UInt8}
    (h : TooShort bytes ∨ UnknownType bytes) :
    ∃ ret t, (s.mgtRcvMsg (Buf.ofBytes bytes) bytes.length).val =
      some (ret, { s with stat := { s.stat with timeout := t } }) := by
  unfold mgtRcvMsg
  by_cases hlen : bytes.length < tlvSize
  · rw [if_pos hlen]
    exact ⟨1, s.stat.timeout, rfl⟩
  · rw [if_neg hlen]
    simp only [Traced.val_bind, Traced.val_touch, Option.bind_some]
    refine ⟨0, 0, ?_⟩
    cases hpro : EdgeProType.ofCode ((Buf.ofBytes bytes).le32 0) with
    | none => rfl
    | some pro =>
        have hshort : bytes.length < tlvSize + pro.layoutSize := by
          rcases h with (h | ⟨pro', hpro', h⟩) | ⟨_, h⟩
          · exact absurd h hlen
          · cases hpro.symm.trans hpro'
            exact h
          · cases hpro.symm.trans h
        cases hbody : pro.bodySize with
        | none => simp only [hbody, Traced.val_pure]
        | some size =>
            rw [EdgeProType.layoutSize_of_bodySize hbody] at hshort
            have hsize : bytes.length - tlvSize < size := by omega
            simp only [hbody, hsize, if_true, Traced.val_pure]

/-- The dispatcher itself always comes back. -/
theorem isSome_mgtRcvMsg (s : EdgeState) {bytes : List UInt8}
    (h : ∀ c, decodeCommand (Buf.ofBytes bytes) bytes.length = some c →
      ∀ t, (c.exec { s with stat := { s.stat with timeout := t } }).val.isSome) :
    (s.mgtRcvMsg (Buf.ofBytes bytes) bytes.length).val.isSome := by
  unfold decodeCommand at h
  unfold mgtRcvMsg
  by_cases hlen : bytes.length < tlvSize
  · simp [hlen]
  · rw [if_neg hlen] at h ⊢
    simp only [Traced.val_bind, Traced.val_touch, Option.bind_some]
    cases hpro : EdgeProType.ofCode ((Buf.ofBytes bytes).le32 0) with
    | none => rfl
    | some pro =>
        cases hbody : pro.bodySize with
        | none => simp only [hbody, Traced.val_pure, Option.isSome_some]
        | some size =>
            simp only [hpro, hbody] at h
            by_cases hsize : bytes.length - tlvSize < size
            · simp [hbody, hsize]
            · simp only [hsize, if_false] at h
              simp only [hbody, hsize, if_false, Traced.val_bind, Traced.val_touch,
                Option.bind_some]
              cases hcommand : pro.command ((Buf.ofBytes bytes).drop tlvSize) with
              | none => rfl
              | some c =>
                  obtain ⟨s', hexec⟩ := Option.isSome_iff_exists.mp (h c hcommand 0)
                  simp [hexec]

/-- The edge stays inside a message precisely when the type exists, or there is
no header to read it from. -/
theorem inMessage_mgtRcvMsg_iff (s : EdgeState) (bytes : List UInt8) :
    (s.mgtRcvMsg (Buf.ofBytes bytes) bytes.length).Each InMessage ↔
      bytes.length < tlvSize ∨ (typeWord bytes).toNat < edgeProButt := by
  unfold mgtRcvMsg
  by_cases hlen : bytes.length < tlvSize
  · simp [hlen]
  · rw [if_neg hlen, Traced.each_touch_bind, Traced.each_touch_bind, inMessage_name_iff,
      and_iff_right (inMessage_header (Nat.not_lt.mp hlen)), or_iff_right hlen]
    apply and_iff_left_of_imp
    intro hknown
    have hsome := (EdgeProType.isSome_ofCode_iff _).mpr hknown
    obtain ⟨pro, hpro⟩ := Option.isSome_iff_exists.mp hsome
    simp only [hpro]
    cases hbody : pro.bodySize with
    | none => simp
    | some size =>
        by_cases hsize : bytes.length - tlvSize < size
        · simp [hsize]
        · simp only [hsize, if_false]
          rw [Traced.each_touch_bind]
          refine ⟨fun _ => ?_, ?_⟩
          · simp only [Access.InBounds, Buf.ofBytes_size]
            omega
          · cases pro.command ((Buf.ofBytes bytes).drop tlvSize) with
            | none => exact Traced.each_pure _
            | some c =>
                rw [Traced.each_bind]
                exact ⟨inMessage_exec _ c, fun _ _ => Traced.each_pure _⟩

end EdgeState

namespace Server

/-- Of a report, the server reads the whole `struct edge_pkt`. -/
theorem inMessage_rcvEdgePkt_iff (msg : Buf) :
    (rcvEdgePkt msg).Each InMessage ↔ EdgeProType.pkt.layoutSize ≤ msg.size := by
  unfold rcvEdgePkt
  rw [Traced.each_touch_bind]
  have hread : InMessage ⟨.msg, 0, 8 + edgePktSize + 4, msg.size⟩ ↔
      EdgeProType.pkt.layoutSize ≤ msg.size := by
    simp [InMessage, Access.InBounds, EdgeProType.layoutSize]
  rw [hread]
  apply and_iff_left_of_imp
  intro _
  simp only
  split
  · exact Traced.each_stop
  · simp [Traced.each_touch_bind, InMessage]

/-- The server stays inside a message precisely when the type exists and the
body of a Hello or a Packet is complete, or when it does not look at all. -/
theorem inMessage_rcvEdgeMsg_iff (srv : Server) (bytes : List UInt8) :
    (srv.rcvEdgeMsg (Buf.ofBytes bytes) bytes.length).Each InMessage ↔
      srv.status = .offline ∨ bytes.length < tlvSize ∨
        ∃ pro, EdgeProType.ofCode (typeWord bytes) = some pro ∧
          (pro = .hello ∨ pro = .pkt → tlvSize + pro.layoutSize ≤ bytes.length) := by
  unfold rcvEdgeMsg
  by_cases hstatus : srv.status = .offline
  · simp [hstatus]
  by_cases hlen : bytes.length < tlvSize
  · simp [hlen]
  rw [if_neg hstatus, if_neg hlen, Traced.each_touch_bind, Traced.each_touch_bind,
    inMessage_name_iff, and_iff_right (inMessage_header (Nat.not_lt.mp hlen)),
    or_iff_right hstatus, or_iff_right hlen, ← EdgeProType.isSome_ofCode_iff]
  have htype : (Buf.ofBytes bytes).le32 0 = typeWord bytes := rfl
  rw [htype]
  cases hpro : EdgeProType.ofCode (typeWord bytes) with
  | none => simp
  | some pro =>
      simp only [Option.isSome_some, true_and, Option.some.injEq, exists_eq_left']
      by_cases hhello : pro = .hello
      · subst hhello
        simp only [Traced.each_touch_bind, Traced.each_pure, and_true]
        simp [InMessage, Access.InBounds, EdgeProType.layoutSize, Nat.add_assoc]
      by_cases hpkt : pro = .pkt
      · subst hpkt
        simp only [Traced.each_bind, inMessage_rcvEdgePkt_iff, Traced.each_pure, implies_true,
          and_true, Buf.drop_size, Buf.ofBytes_size]
        simp
        omega
      · refine iff_of_true ?_ fun h => (h.elim hhello hpkt).elim
        split
        · exact absurd (Option.some.inj ‹_›) hhello
        · exact absurd (Option.some.inj ‹_›) hpkt
        · exact Traced.each_pure _

/-- The control byte of the packet in a report. -/
def reportedCtrl (bytes : List UInt8) : UInt8 := (Buf.ofBytes bytes).mem (tlvSize + 8 + 1)

/-- The server works on the address of a report precisely when there is one. -/
theorem isSome_rcvEdgePkt_iff (msg : Buf) :
    (rcvEdgePkt msg).val.isSome ↔ KnownFormat (msg.mem (8 + 1)) := by
  unfold rcvEdgePkt
  simp only [Traced.val_bind, Traced.val_touch, Option.bind_some, Buf.field_mem, Buf.drop_mem,
    parseAddressFiled_eq]
  by_cases hknown : KnownFormat (msg.mem (8 + 1))
  · simp [hknown, ctrlInfo]
  · simp [hknown, PktInfo.zero]

/-- The server comes back from everything but a Packet with a control byte that
is refused. -/
theorem isSome_rcvEdgeMsg_iff (srv : Server) (bytes : List UInt8) :
    (srv.rcvEdgeMsg (Buf.ofBytes bytes) bytes.length).val.isSome ↔
      srv.status = .offline ∨ bytes.length < tlvSize ∨
        (EdgeProType.ofCode (typeWord bytes) = some .pkt → KnownFormat (reportedCtrl bytes)) := by
  unfold rcvEdgeMsg
  by_cases hstatus : srv.status = .offline
  · simp [hstatus]
  by_cases hlen : bytes.length < tlvSize
  · simp [hlen]
  rw [if_neg hstatus, if_neg hlen, or_iff_right hstatus, or_iff_right hlen]
  simp only [Traced.val_bind, Traced.val_touch, Option.bind_some]
  have htype : (Buf.ofBytes bytes).le32 0 = typeWord bytes := rfl
  rw [htype]
  split
  · next hhello => simp [hhello]
  · next hpkt =>
    have hctrl : ((Buf.ofBytes bytes).drop tlvSize).mem (8 + 1) = reportedCtrl bytes := by
      rw [Buf.drop_mem, reportedCtrl, Nat.add_assoc]
    rw [hpkt, ← hctrl, ← isSome_rcvEdgePkt_iff]
    cases hval : (rcvEdgePkt ((Buf.ofBytes bytes).drop tlvSize)).val with
    | none => simp [hval]
    | some msgs => simp [hval]
  · next _ hother => exact iff_of_true rfl fun hpkt => (hother hpkt).elim

/-- The control block of the server does not depend on what it receives. -/
theorem rcvEdgeMsg_control {srv srv' : Server} {msg : Buf} {len : ℕ} {msgs : List (List UInt8)}
    (h : (srv.rcvEdgeMsg msg len).val = some (msgs, srv')) :
    srv' = { srv with clientStat := srv'.clientStat } := by
  unfold rcvEdgeMsg at h
  split at h
  · cases h
    rfl
  split at h
  · cases h
    rfl
  simp only [Traced.val_bind, Traced.val_touch, Option.bind_some] at h
  split at h
  · cases h
    rfl
  · simp only [Traced.val_bind, Traced.val_pure] at h
    obtain ⟨_, _, h⟩ := Option.bind_eq_some_iff.mp h
    cases h
    rfl
  · cases h
    rfl

end Server

/-- Both ends are safe from a message precisely when its type exists and, for
the two bodies that the server reads, when these are complete, a Packet with an
address that is known. -/
theorem dispatchBounded_iff (s : EdgeState) (srv : Server) (bytes : List UInt8) :
    (s.DispatchBounded bytes ↔
      bytes.length < tlvSize ∨ (typeWord bytes).toNat < edgeProButt) ∧
    (srv.DispatchBounded bytes ↔
      srv.status = .offline ∨ bytes.length < tlvSize ∨
        ∃ pro, EdgeProType.ofCode (typeWord bytes) = some pro ∧
          (pro = .hello ∨ pro = .pkt → tlvSize + pro.layoutSize ≤ bytes.length) ∧
          (pro = .pkt → KnownFormat (Server.reportedCtrl bytes))) := by
  constructor
  · rw [← EdgeState.inMessage_mgtRcvMsg_iff s bytes]
    exact ⟨fun h => h.reads, fun h => ⟨h, s.isSome_mgtRcvMsg, s.mgtRcvMsg_ignored⟩⟩
  · have hboth : srv.DispatchBounded bytes ↔
        (srv.rcvEdgeMsg (Buf.ofBytes bytes) bytes.length).Each InMessage ∧
          (srv.rcvEdgeMsg (Buf.ofBytes bytes) bytes.length).val.isSome :=
      ⟨fun h => ⟨h.reads, h.returns⟩,
        fun h => ⟨h.1, h.2, fun _ _ _ hval => Server.rcvEdgeMsg_control hval⟩⟩
    rw [hboth, Server.inMessage_rcvEdgeMsg_iff, Server.isSome_rcvEdgeMsg_iff, ← or_and_left,
      ← or_and_left]
    refine or_congr_right (or_congr_right ?_)
    constructor
    · rintro ⟨⟨pro, hpro, hcomplete⟩, hctrl⟩
      exact ⟨pro, hpro, hcomplete, fun hpkt => hctrl (hpkt ▸ hpro)⟩
    · rintro ⟨pro, hpro, hcomplete, hctrl⟩
      exact ⟨⟨pro, hpro, hcomplete⟩, fun hpkt => hctrl (Option.some.inj (hpro.symm.trans hpkt))⟩

/-- A header alone, with the first type that does not exist. -/
def unnamedMsg : List UInt8 := le32Bytes 11 ++ le32Bytes 0

/-- A Hello without its body. -/
def emptyHello : List UInt8 := tlvBytes .hello []

/-- The first leads the edge out of the table of names, the second leads the
server out of the message. -/
theorem not_dispatchBounded_of_header :
    (¬ ∀ (s : EdgeState) (bytes : List UInt8), s.DispatchBounded bytes) ∧
      ¬ ∀ (srv : Server) (bytes : List UInt8), srv.DispatchBounded bytes := by
  constructor
  · intro h
    have hreads := (h (EdgeState.init [] fun _ => 0) unnamedMsg).reads
    rw [EdgeState.inMessage_mgtRcvMsg_iff] at hreads
    exact absurd hreads (by decide)
  · intro h
    have hreads := (h Server.init emptyHello).reads
    rw [Server.inMessage_rcvEdgeMsg_iff] at hreads
    rcases hreads with hreads | hreads | ⟨pro, hpro, hcomplete⟩
    · cases hreads
    · exact absurd hreads (by decide)
    · have hhello : EdgeProType.ofCode (typeWord emptyHello) = some .hello := by decide
      cases hpro.symm.trans hhello
      exact absurd (hcomplete (Or.inl rfl)) (by decide)

end EceLib
