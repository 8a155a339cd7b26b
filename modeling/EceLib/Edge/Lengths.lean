import EceLib.Edge.System
import Mathlib.Data.Nat.Digits.Defs

/-!
# Lengths in messages

`mgt_rcv_msg` checks the length of a message, but not the lengths of the
template and the address that stand in it.  Both fields have 64 bytes, and
these lengths can be any 32-bit number.
-/

namespace EceLib

open Support

/-! ## The text of an address -/

theorem length_hexPadded_le {width : ℕ} (hwidth : width ≤ 8) (x : UInt32) :
    (hexPadded width x).length ≤ 8 := by
  have hdigits : (Nat.toDigits 16 x.toNat).length ≤ 8 :=
    Nat.toDigitsCore_length 16 (x.toNat + 1) x.toNat 8 (by decide) x.toNat_lt
  rw [hexPadded, List.length_leftpad]
  exact max_le hwidth hdigits

theorem length_oidText_le (type : UInt32) (addr : List UInt8) :
    (oidText type addr).length ≤ 8 + 2 * addr.length := by
  rw [oidText, List.length_append, length_flatMap_hexByte]
  exact Nat.add_le_add_right (length_hexPadded_le (by decide) type) _

/-! ## The accesses of the commands -/

/-- The template in a message and where it is copied to, an address in a message
and the text that is made of it. -/
def fieldBuffers : List Buffer := [.fmtAddPkt, .fmtPkt, .addr, .oidTmp]

/-- An access to one of these buffers stays inside it. -/
def InField (a : Access Buffer) : Prop := a.buf ∈ fieldBuffers → a.InBounds

/-- The byte array of a command is a field of 64 bytes. -/
def Command.FieldSized : Command → Prop
  | addPacketFormat pkt _ _ _ _ _ _ => pkt.size = mgtPktSize
  | addDevice addr _ _ _ _ => addr.size = mgtAddrSize
  | delDevice addr _ _ => addr.size = mgtAddrSize
  | _ => True

/-- The length of the template, or of the address, is not more than its field
has, whenever it is used. -/
def Command.LengthFits (s : EdgeState) : Command → Prop
  | addPacketFormat _ pktLen topic _ _ _ _ =>
      (s.getPdt topic).isSome → pktLen.toNat ≤ mgtPktSize
  | addDevice _ len _ _ topic =>
      topic ≠ 0 → (s.getPdt topic).isSome → len.toNat ≤ mgtAddrSize
  | delDevice _ len _ => len.toNat ≤ mgtAddrSize
  | _ => True

theorem EdgeProType.command_fieldSized {pro : EdgeProType} {msg : Buf} {c : Command}
    (h : pro.command msg = some c) : c.FieldSized := by
  cases pro <;> cases h
  all_goals trivial

theorem inField_getDevOid {type : UInt32} {addr : Buf} {addrLen : ℕ}
    (hsize : addr.size = mgtAddrSize) :
    (getDevOid type addr addrLen).Each InField ↔ addrLen ≤ mgtAddrSize := by
  unfold getDevOid
  rw [Traced.each_touch_bind, Traced.each_touch_bind]
  constructor
  · rintro ⟨haddr, _⟩
    have hbounds := haddr (by simp [fieldBuffers])
    simpa [Access.InBounds, hsize] using hbounds
  · intro hlen
    have htext := length_oidText_le type (addr.bytes 0 addrLen)
    rw [Buf.length_bytes] at htext
    refine ⟨fun _ => ?_, fun _ => ?_, Traced.each_pure _⟩
    · simpa [Access.InBounds, hsize] using hlen
    · have hfits : 8 + 2 * mgtAddrSize + 1 ≤ oidTmpSize := by decide
      simp only [Access.InBounds]
      omega

theorem inField_addG1Fmt {s : EdgeState} {topic key : UInt32} {pkt : Buf}
    {size pktLen offset len : ℕ} (hsize : pkt.size = mgtPktSize) :
    (addG1Fmt s topic key size pkt pktLen offset len).Each InField ↔
      ((s.getPdt topic).isSome → pktLen ≤ mgtPktSize) := by
  unfold addG1Fmt
  cases hpdt : s.getPdt topic with
  | none => simp
  | some pdt =>
      simp only [Option.isSome_some, forall_const]
      rw [Traced.each_touch_bind, Traced.each_require_bind]
      constructor
      · rintro ⟨hpkt, _⟩
        have hbounds := hpkt (by simp [fieldBuffers])
        simpa [Access.InBounds, hsize] using hbounds
      · intro hlen
        have hfits : mgtPktSize ≤ fmtPktSize := by decide
        refine ⟨fun _ => ?_, fun _ => ?_, fun _ => Traced.each_pure _⟩
        · simpa [Access.InBounds, hsize] using hlen
        · simpa [Access.InBounds] using hlen.trans hfits

theorem inField_addDev {s : EdgeState} {module : UInt16} {addr : Buf} {addrLen : ℕ}
    {type topic : UInt32} (hsize : addr.size = mgtAddrSize) :
    (s.addDev module addr addrLen type topic).Each InField ↔
      (topic ≠ 0 → (s.getPdt topic).isSome → addrLen ≤ mgtAddrSize) := by
  unfold EdgeState.addDev
  by_cases hargs : addrLen = 0 ∨ topic = 0
  · rw [if_pos hargs]
    refine iff_of_true (Traced.each_pure _) fun htopic _ => ?_
    have hlen : addrLen = 0 := hargs.resolve_right htopic
    omega
  · rw [if_neg hargs]
    obtain ⟨_, htopic⟩ := not_or.mp hargs
    cases hpdt : s.getPdt topic with
    | none => simp
    | some pdt =>
        rw [Traced.each_bind, inField_getDevOid hsize]
        simp [htopic]

theorem inField_delDev {s : EdgeState} {type : UInt32} {addr : Buf} {addrLen : ℕ}
    (hsize : addr.size = mgtAddrSize) :
    (s.delDev type addr addrLen).Each InField ↔ addrLen ≤ mgtAddrSize := by
  unfold EdgeState.delDev
  by_cases hlen : addrLen = 0
  · rw [if_pos hlen, hlen]
    exact iff_of_true (Traced.each_pure _) (Nat.zero_le _)
  · rw [if_neg hlen, Traced.each_bind, EdgeState.getDev, Traced.each_bind,
      inField_getDevOid hsize]
    simp only [Traced.each_pure, implies_true, and_true]
    refine and_iff_left fun dev _ => ?_
    cases dev <;> simp

theorem Command.inField_exec {s : EdgeState} {c : Command} (h : c.FieldSized) :
    (c.exec s).Each InField ↔ c.LengthFits s := by
  cases c with
  | addPacketFormat pkt pktLen topic key size offset len => exact inField_addG1Fmt h
  | addDevice addr len linkType module topic =>
      unfold exec
      rw [Traced.each_bind, inField_addDev h]
      simp [LengthFits]
  | delDevice addr len linkType => exact inField_delDev h
  | _ => exact iff_of_true (Traced.each_pure _) trivial

/-- On every message `mgt_rcv_msg` stays inside the template and the address,
the template of the format and the text of the address, precisely when the
lengths in the message are not more than the fields have. -/
theorem mgtRcvMsg_inField_iff (s : EdgeState) (msg : Buf) (len : ℕ) :
    (s.mgtRcvMsg msg len).Each InField ↔
      ∀ c, decodeCommand msg len = some c → c.LengthFits s := by
  unfold EdgeState.mgtRcvMsg decodeCommand
  by_cases hlen : len < tlvSize
  · simp [hlen]
  · simp only [hlen, if_false]
    rw [Traced.each_touch_bind, Traced.each_touch_bind]
    have hmsg : ∀ off n, InField ⟨.msg, off, n, msg.size⟩ := fun _ _ h => by
      simp [fieldBuffers] at h
    have hedge : ∀ off n, InField ⟨.edgeMsg, off, n, edgeProButt⟩ := fun _ _ h => by
      simp [fieldBuffers] at h
    simp only [hmsg, hedge, true_and]
    cases EdgeProType.ofCode (msg.le32 0) with
    | none => simp
    | some pro =>
        cases hbody : pro.bodySize with
        | none => simp [hbody]
        | some size =>
            by_cases hsize : len - tlvSize < size
            · simp [hbody, hsize]
            · simp only [hbody, hsize, if_false]
              rw [Traced.each_touch_bind]
              simp only [hmsg, true_and]
              cases hcommand : pro.command (msg.drop tlvSize) with
              | none => simp
              | some c =>
                  simp only [Option.some.injEq, forall_eq']
                  rw [Traced.each_bind,
                    Command.inField_exec (EdgeProType.command_fieldSized hcommand)]
                  simp only [Traced.each_pure, implies_true, and_true]
                  -- the reset of the timeout does not touch the products
                  cases c <;> exact Iff.rfl

/-- A DelDevice message with an address of 65 bytes, in a field of 64. -/
def longAddressMsg : List UInt8 :=
  tlvBytes .devDel (List.replicate mgtAddrSize 1 ++ be32Bytes 65 ++ be32Bytes 0)

theorem mgtRcvMsg_leaves_address_field :
    ¬ ∀ (s : EdgeState) (msg : List UInt8),
      (decodeCommand (Buf.ofBytes msg) msg.length).isSome →
        (s.mgtRcvMsg (Buf.ofBytes msg) msg.length).Each InField := by
  intro h
  have hsafe := h (EdgeState.init [] fun _ => 0) longAddressMsg (by decide +kernel)
  have haccess : (⟨.addr, 0, 65, 64⟩ : Access Buffer) ∈
      ((EdgeState.init [] fun _ => 0).mgtRcvMsg (Buf.ofBytes longAddressMsg)
        longAddressMsg.length).acc := by
    decide +kernel
  exact absurd (hsafe _ haccess (by decide)) (by decide)

end EceLib
