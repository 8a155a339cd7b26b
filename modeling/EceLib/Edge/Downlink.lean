import EceLib.Edge.System

/-!
# Packets to the devices

What a receiver that reads packets as the edge does finds in a packet of
`send_pkt_to_device`: the key, and the template with the data in place, as far
as the template was copied; and always the one address that is built in.
-/

namespace EceLib

open Support

/-! ## Reading a packet -/

/-- What `parse_g1_pkt` and `parse_msg` read from a packet. -/
structure G1Contents where
  address : List UInt8
  key : UInt32
  did : UInt8
  payloadLen : ℕ
  payload : List UInt8
deriving DecidableEq

/-- The address in a packet of `size` bytes, if `parse_address_filed` accepts
its length. -/
def readAddress (pkt : Buf) (size : UInt64) : Option (List UInt8) :=
  if (pktAddress pkt size).1 = 0 then none
  else some ((pkt.drop 2).bytes 0 (pktAddress pkt size).2.addrLen)

/-- All that is read from a packet of `size` bytes, if the address and the
length of the message are accepted. -/
def readPkt (pkt : Buf) (size : UInt64) : Option G1Contents :=
  (readAddress pkt size).bind fun address =>
    let msg := pktMsg pkt size
    if g1MsgSize > (pktMsgSize pkt size).toNat then none
    else
      some
        { address := address
          key := msgKey msg
          did := msg.mem 4
          payloadLen := msgPayloadLen msg (pktMsgSize pkt size)
          payload := (msg.drop g1MsgSize).bytes 0 (msgPayloadLen msg (pktMsgSize pkt size)) }

/-! ## The packet -/

/-- The address in every packet to a device. -/
def sndAddr : List UInt8 := [0x20, 0xc7, 0xdd, 0x11]

/-- What precedes the payload. -/
def sndHeader (fmt : G1Fmt) (key : UInt32) : List UInt8 :=
  [0x83, 0x41] ++ (sndAddr ++ (be32Bytes key ++ [0x01, UInt8.ofNat fmt.pktLen]))

/-- The template as it is copied, with the data in place, in all the room there
is for a payload. -/
def sndPayload (fmt : G1Fmt) (data : List UInt8) : List UInt8 :=
  overwrite (overwrite (List.replicate 244 0) 0 (fmt.pkt.take fmt.size)) fmt.offset
    (data.take fmt.len)

@[simp] theorem length_sndPayload (fmt : G1Fmt) (data : List UInt8) :
    (sndPayload fmt data).length = 244 := by
  rw [sndPayload, length_overwrite, length_overwrite, List.length_replicate]

theorem sndPkt_eq (fmt : G1Fmt) (key : UInt32) (data : List UInt8) :
    EdgeState.sndPkt fmt key data = sndHeader fmt key ++ sndPayload fmt data := by
  have hfirst : overwrite (List.replicate EdgeState.sndPktSize 0) 0
        [0x83, 0x41, 0x20, 0xc7, 0xdd, 0x11] =
      ([0x83, 0x41] ++ sndAddr) ++ List.replicate 250 0 :=
    overwrite_replicate (by decide)
  have hsecond : overwrite (([0x83, 0x41] ++ sndAddr) ++ List.replicate 250 0) 6
        (be32Bytes key ++ [0x01, UInt8.ofNat fmt.pktLen]) =
      sndHeader fmt key ++ List.replicate 244 0 := by
    have hright := overwrite_append_right ([0x83, 0x41] ++ sndAddr) (List.replicate 250 0) 0
      (be32Bytes key ++ [0x01, UInt8.ofNat fmt.pktLen])
    have hrest : 250 - (be32Bytes key ++ [0x01, UInt8.ofNat fmt.pktLen]).length = 244 := rfl
    rw [overwrite_replicate (by simp), hrest] at hright
    rw [sndHeader, ← List.append_assoc, List.append_assoc _ _ (List.replicate 244 0)]
    exact hright
  have hthird : ∀ (r src : List UInt8) (off : ℕ),
      overwrite (sndHeader fmt key ++ r) (12 + off) src =
        sndHeader fmt key ++ overwrite r off src :=
    fun r src off => overwrite_append_right (sndHeader fmt key) r off src
  simp only [EdgeState.sndPkt]
  rw [hfirst, hsecond, hthird _ _ 0, hthird]
  rfl

/-! ## What is read from it -/

/-- A packet whose address field is four bytes long. -/
theorem pktAddress_of_ctrl {pkt : Buf} {size : UInt64} (hctrl : pkt.mem 1 = 0x41)
    (hsize : 6 < size.toNat) :
    (pktAddress pkt size).1 = 4 ∧ (pktAddress pkt size).2.addrLen = 4 := by
  have hparse : pktAddress pkt size =
      (if (size - 2).toNat > 4 then 4 else 0,
        { h1 := some 2, h1Len := 4, h2 := none, h2Len := 0, h3 := none, h3Len := 0 }) := by
    rw [pktAddress, hctrl]
    rfl
  rw [hparse, toNat_sub_two (by omega), if_pos (by omega)]
  exact ⟨rfl, rfl⟩

theorem readAddress_snd {r : List UInt8} {size : UInt64} (hsize : 6 < size.toNat) :
    readAddress (Buf.ofBytes ([0x83, 0x41] ++ (sndAddr ++ r))) size = some sndAddr := by
  obtain ⟨hl, hlen⟩ := pktAddress_of_ctrl
    (show (Buf.ofBytes ([0x83, 0x41] ++ (sndAddr ++ r))).mem 1 = 0x41 from rfl) hsize
  have hdrop : (Buf.ofBytes ([0x83, 0x41] ++ (sndAddr ++ r))).drop 2 =
      Buf.ofBytes (sndAddr ++ r) := Buf.ofBytes_append_drop [0x83, 0x41] _
  rw [readAddress, hl, if_neg (by decide), hlen, hdrop]
  exact congrArg some (Buf.bytes_append_left sndAddr r)

/-- A packet with the built-in address and a payload of announced length. -/
theorem readPkt_snd (key : UInt32) (did : UInt8) {payload : List UInt8}
    (hlen : payload.length < 256) :
    readPkt (Buf.ofBytes ([0x83, 0x41] ++ (sndAddr ++
        ((be32Bytes key ++ [did, UInt8.ofNat payload.length]) ++ payload))))
      (UInt64.ofNat (12 + payload.length)) =
      some
        { address := sndAddr, key := key, did := did, payloadLen := payload.length
          payload := payload } := by
  let msg := (be32Bytes key ++ [did, UInt8.ofNat payload.length]) ++ payload
  let pkt := [0x83, 0x41] ++ (sndAddr ++ msg)
  let size := UInt64.ofNat (12 + payload.length)
  have hsize : size.toNat = 12 + payload.length := by
    rw [UInt64.toNat_ofNat']
    exact Nat.mod_eq_of_lt (by omega)
  obtain ⟨hl, _⟩ := pktAddress_of_ctrl (show (Buf.ofBytes pkt).mem 1 = 0x41 from rfl)
    (show 6 < size.toNat by omega)
  have hmsg : pktMsg (Buf.ofBytes pkt) size = Buf.ofBytes msg := by
    rw [pktMsg, hl]
    exact Buf.ofBytes_append_drop ([0x83, 0x41] ++ sndAddr) msg
  have hmsgSize : (pktMsgSize (Buf.ofBytes pkt) size).toNat = 6 + payload.length := by
    rw [toNat_pktMsgSize (by omega), hl]
    omega
  have hpayload : msgPayloadLen (Buf.ofBytes msg) (pktMsgSize (Buf.ofBytes pkt) size) =
      payload.length := by
    have hfive : (Buf.ofBytes msg).mem 5 = UInt8.ofNat payload.length := rfl
    rw [msgPayloadLen, hmsgSize, hfive, UInt8.toNat_ofNat', Nat.mod_eq_of_lt hlen]
    simp [g1MsgSize]
  have haddr : readAddress (Buf.ofBytes pkt) size = some sndAddr := readAddress_snd (by omega)
  have hdrop : (Buf.ofBytes msg).drop g1MsgSize = Buf.ofBytes payload :=
    Buf.ofBytes_append_drop (be32Bytes key ++ [did, UInt8.ofNat payload.length]) payload
  change readPkt (Buf.ofBytes pkt) size = _
  simp only [readPkt, haddr, Option.bind_some, hmsg, hpayload, hdrop, Buf.ofBytes_bytes]
  rw [if_neg (by rw [hmsgSize, g1MsgSize]; omega)]
  have hkey : msgKey (Buf.ofBytes msg) = key :=
    (congrArg (fun l => (Buf.ofBytes l).be32 0) (List.append_assoc _ _ _)).trans
      (Buf.be32_be32Bytes key _)
  rw [hkey]
  rfl

/-- What is handed over with a payload of `pkt_len` bytes. -/
theorem readPkt_sndHeader {fmt : G1Fmt} (key : UInt32) {body : List UInt8}
    (hbody : body.length = fmt.pktLen) (hlen : fmt.pktLen < 256) :
    readPkt (Buf.ofBytes (sndHeader fmt key ++ body))
        (UInt64.ofNat (sndHeader fmt key ++ body).length) =
      some
        { address := sndAddr, key := key, did := 1, payloadLen := fmt.pktLen
          payload := body } := by
  have hsnd := readPkt_snd key 1 (show body.length < 256 from hbody ▸ hlen)
  have hheader : (sndHeader fmt key).length = 12 := rfl
  rw [hbody] at hsnd
  rw [List.length_append, hheader, hbody, sndHeader, List.append_assoc, List.append_assoc]
  exact hsnd

/-! ## Sending -/

namespace EdgeState

/-- The call hands `pkt` to `app_snd`. -/
def Sends (s : EdgeState) (dev : Dev) (key : UInt32) (data pkt : List UInt8) : Prop :=
  ∃ s', (s.sendPktToDevice dev key data).val = some s' ∧ s'.out = .device dev.module pkt :: s.out

variable {s : EdgeState} {dev : Dev} {key : UInt32} {data pkt : List UInt8}

/-- A packet is sent where the product of the device has a format for the key. -/
theorem sends_iff :
    s.Sends dev key data pkt ↔
      ∃ pdt fmt, s.deref dev.pdt = some pdt ∧ s.getG1Fmt pdt.topic key = some fmt ∧
        pkt = sndHeader fmt key ++ (sndPayload fmt data).take fmt.pktLen := by
  have htake : ∀ fmt : G1Fmt, (sndPkt fmt key data).take (12 + fmt.pktLen) =
      sndHeader fmt key ++ (sndPayload fmt data).take fmt.pktLen := fun fmt => by
    rw [sndPkt_eq]
    have hheader : (sndHeader fmt key).length = 12 := rfl
    rw [← hheader, List.take_length_add_append]
  unfold Sends sendPktToDevice
  cases hpdt : s.deref dev.pdt with
  | none => simp
  | some pdt =>
      cases hfmt : s.getG1Fmt pdt.topic key with
      | none => simp [hfmt]
      | some fmt => simp [hfmt, htake, eq_comm]

/-- What is sent is read as a message for the built-in address. -/
theorem readAddress_of_sends (h : s.Sends dev key data pkt) :
    readAddress (Buf.ofBytes pkt) (UInt64.ofNat pkt.length) = some sndAddr := by
  obtain ⟨pdt, fmt, _, _, rfl⟩ := sends_iff.mp h
  have hlen : (sndHeader fmt key ++ (sndPayload fmt data).take fmt.pktLen).length =
      12 + min fmt.pktLen 244 := by
    rw [List.length_append, List.length_take, length_sndPayload]
    rfl
  have hsize : 6 < (UInt64.ofNat (12 + min fmt.pktLen 244)).toNat := by
    rw [UInt64.toNat_ofNat', Nat.mod_eq_of_lt (by omega)]
    omega
  rw [hlen, sndHeader, List.append_assoc, List.append_assoc]
  exact readAddress_snd hsize

end EdgeState

/-! ## The template -/

/-- The template of a format: what was configured, with the data in place. -/
def G1Fmt.filled (fmt : G1Fmt) (data : List UInt8) : List UInt8 :=
  overwrite ((Buf.ofBytes fmt.pkt).bytes 0 fmt.pktLen) fmt.offset data

/-- The bytes of the template that are sent but not copied are zero anyway,
unless data takes their place. -/
def G1Fmt.TemplateCopied (fmt : G1Fmt) : Prop :=
  ∀ i < fmt.pktLen, fmt.size ≤ i → i < fmt.offset ∨ fmt.offset + fmt.len ≤ i →
    (Buf.ofBytes fmt.pkt).mem i = 0

instance (fmt : G1Fmt) : Decidable fmt.TemplateCopied :=
  inferInstanceAs (Decidable (∀ i < fmt.pktLen, _ → _ → _))

/-- The copy of the template holds its first `size` bytes and zeros. -/
theorem getElem?_copied (fmt : G1Fmt) {n i : ℕ} (hi : i < n) :
    (overwrite (List.replicate n 0) 0 (fmt.pkt.take fmt.size))[i]? =
      some (if i < fmt.size then (Buf.ofBytes fmt.pkt).mem i else 0) := by
  have hmem : (Buf.ofBytes fmt.pkt).mem i = fmt.pkt[i]?.getD 0 := List.getD_eq_getElem?_getD
  rw [getElem?_overwrite_replicate _ hi, hmem, List.getElem?_take]
  by_cases hsize : i < fmt.size
  · rw [if_pos hsize, if_pos hsize]
  · rw [if_neg hsize, if_neg hsize]
    rfl

/-- What is sent at a place of the payload. -/
theorem getElem?_sndPayload {fmt : G1Fmt} {data : List UInt8} {i : ℕ}
    (hplace : fmt.offset + fmt.len ≤ 244) (hdata : data.length = fmt.len) (hi : i < 244) :
    (sndPayload fmt data)[i]? =
      if fmt.offset ≤ i ∧ i < fmt.offset + data.length then data[i - fmt.offset]?
      else some (if i < fmt.size then (Buf.ofBytes fmt.pkt).mem i else 0) := by
  have hroom : (overwrite (List.replicate 244 (0 : UInt8)) 0
      (fmt.pkt.take fmt.size)).length = 244 := by
    rw [length_overwrite, List.length_replicate]
  have hcopied : (overwrite (List.replicate 244 (0 : UInt8)) 0
      (fmt.pkt.take fmt.size))[i]? = _ := getElem?_copied fmt hi
  rw [sndPayload, List.take_of_length_le hdata.le, getElem?_overwrite (by omega) (by omega),
    hcopied]

theorem getElem?_filled {fmt : G1Fmt} {data : List UInt8} {i : ℕ} (hi : i < fmt.pktLen)
    (hplace : fmt.offset + data.length ≤ fmt.pktLen) :
    (fmt.filled data)[i]? =
      if fmt.offset ≤ i ∧ i < fmt.offset + data.length then data[i - fmt.offset]?
      else some ((Buf.ofBytes fmt.pkt).mem i) := by
  have htemplate : ((Buf.ofBytes fmt.pkt).bytes 0 fmt.pktLen)[i]? =
      some ((Buf.ofBytes fmt.pkt).mem i) := by
    simp [Buf.bytes, hi]
  rw [G1Fmt.filled, getElem?_overwrite (by rw [Buf.length_bytes]; omega)
    (by rwa [Buf.length_bytes]), htemplate]

/-- The payload that is sent is the one wanted precisely if the template is copied. -/
theorem sndPayload_take_iff {fmt : G1Fmt} {data : List UInt8} (hpktLen : fmt.pktLen ≤ 244)
    (hplace : fmt.offset + fmt.len ≤ fmt.pktLen) (hdata : data.length = fmt.len) :
    (sndPayload fmt data).take fmt.pktLen = fmt.filled data ↔ fmt.TemplateCopied := by
  have hfilled : (fmt.filled data).length = fmt.pktLen := by
    rw [G1Fmt.filled, length_overwrite, Buf.length_bytes]
  have hget : ∀ i < fmt.pktLen,
      (((sndPayload fmt data).take fmt.pktLen)[i]? = (fmt.filled data)[i]? ↔
      (fmt.size ≤ i → i < fmt.offset ∨ fmt.offset + fmt.len ≤ i →
        (Buf.ofBytes fmt.pkt).mem i = 0)) := by
    intro i hi
    rw [List.getElem?_take_of_lt hi, getElem?_sndPayload (by omega) hdata (by omega),
      getElem?_filled hi (by omega), hdata]
    by_cases hin : fmt.offset ≤ i ∧ i < fmt.offset + fmt.len
    · rw [if_pos hin, if_pos hin]
      exact iff_of_true rfl fun _ hout => by omega
    · rw [if_neg hin, if_neg hin]
      by_cases hsize : i < fmt.size
      · rw [if_pos hsize]
        exact iff_of_true rfl fun hge => absurd hsize (Nat.not_lt.mpr hge)
      · rw [if_neg hsize, Option.some.injEq]
        constructor
        · exact fun hzero _ _ => hzero.symm
        · exact fun h => (h (Nat.not_lt.mp hsize) (by omega)).symm
  constructor
  · intro heq i hi
    exact (hget i hi).mp (by rw [heq])
  · intro h
    apply List.ext_getElem?
    intro i
    by_cases hi : i < fmt.pktLen
    · exact (hget i hi).mpr (h i hi)
    · rw [List.getElem?_eq_none (by rw [List.length_take]; omega),
        List.getElem?_eq_none (by rw [hfilled]; omega)]

/-! ## What a device receives -/

namespace EdgeState

/-- The bytes handed to `app_snd` are in bounds, and are read as a message with
the key of the format, `did` 1 and `pkt_len` bytes of payload, which are the
template with the data in place. -/
def CarriesTemplate (s : EdgeState) (dev : Dev) (key : UInt32) (fmt : G1Fmt)
    (data : List UInt8) : Prop :=
  (s.sendPktToDevice dev key data).Each Access.InBounds ∧
    ∃ pkt contents, s.Sends dev key data pkt ∧
      readPkt (Buf.ofBytes pkt) (UInt64.ofNat pkt.length) = some contents ∧
      contents.key = fmt.key ∧ contents.did = 1 ∧ contents.payloadLen = fmt.pktLen ∧
      contents.payload = fmt.filled data

variable {s : EdgeState} {dev : Dev} {key : UInt32} {data pkt : List UInt8} {pdt : EdgePdt}
  {fmt : G1Fmt}

/-- All of it but the payload itself always holds. -/
theorem carriesTemplate_iff_payload (hpdt : s.deref dev.pdt = some pdt)
    (hfmt : s.getG1Fmt pdt.topic key = some fmt) (hpktLen : fmt.pktLen ≤ 64)
    (hsize : fmt.size ≤ fmtPktSize) (hplace : fmt.offset + fmt.len ≤ fmt.pktLen)
    (hdata : data.length = fmt.len) :
    s.CarriesTemplate dev key fmt data ↔
      (sndPayload fmt data).take fmt.pktLen = fmt.filled data := by
  have hlen : ((sndPayload fmt data).take fmt.pktLen).length = fmt.pktLen := by
    rw [List.length_take, length_sndPayload]
    omega
  have hkey : fmt.key = key := by
    unfold getG1Fmt at hfmt
    split at hfmt
    · cases hfmt
    · exact Registry.key_of_get hfmt
  have hread := readPkt_sndHeader key hlen (by omega)
  constructor
  · rintro ⟨_, pkt, contents, hsends, hcontents, _, _, _, hpayload⟩
    obtain ⟨pdt', fmt', hpdt', hfmt', rfl⟩ := sends_iff.mp hsends
    obtain rfl : pdt = pdt' := Option.some.inj (hpdt.symm.trans hpdt')
    obtain rfl : fmt = fmt' := Option.some.inj (hfmt.symm.trans hfmt')
    obtain rfl := Option.some.inj (hread.symm.trans hcontents)
    exact hpayload
  · intro hpayload
    refine ⟨?_, _, _, sends_iff.mpr ⟨pdt, fmt, hpdt, hfmt, rfl⟩, hread, hkey.symm, rfl, rfl,
      hpayload⟩
    unfold sendPktToDevice
    simp only [hpdt, hfmt, Traced.each_touch_bind, Traced.each_pure, and_true, Access.InBounds,
      sndPktSize, fmtPktSize] at hsize ⊢
    omega

/-- For every device, every format within the sizes and every data of its
length, the packet is the one wanted precisely if the template is copied as far
as it is sent. -/
theorem carriesTemplate_iff (hpdt : s.deref dev.pdt = some pdt)
    (hfmt : s.getG1Fmt pdt.topic key = some fmt) (hpktLen : fmt.pktLen ≤ 64)
    (hsize : fmt.size ≤ fmtPktSize) (hplace : fmt.offset + fmt.len ≤ fmt.pktLen)
    (hdata : data.length = fmt.len) :
    s.CarriesTemplate dev key fmt data ↔ fmt.TemplateCopied := by
  rw [carriesTemplate_iff_payload hpdt hfmt hpktLen hsize hplace hdata]
  exact sndPayload_take_iff (by omega) hplace hdata

end EdgeState

/-- A device, and a format whose template has ten bytes, of which `size` are
copied. -/
def downlinkRun (size : UInt32) : List Event :=
  [.command (.addProduct 5 1),
    .command (.addPacketFormat (Buf.ofBytes (List.replicate mgtPktSize 0xaa)) 10 5 7 size 0 1),
    .command (.addDevice (Buf.ofBytes (List.replicate mgtAddrSize 1)) 4 0 0 5)]

/-- The device and the format after that run. -/
def downlinkSetup (size : UInt32) : Option (EdgeState × Dev × EdgePdt × G1Fmt) := do
  let s ← run (EdgeState.step Env.plain) (EdgeState.init [] fun _ => 0) (downlinkRun size)
  let dev ← s.gDevMap.get (oidOf accessWloc [1, 1, 1, 1])
  let pdt ← s.deref dev.pdt
  let fmt ← s.getG1Fmt pdt.topic 7
  some (s, dev, pdt, fmt)

theorem downlinkSetup_eq_some {size : UInt32} {s : EdgeState} {dev : Dev} {pdt : EdgePdt}
    {fmt : G1Fmt} (h : downlinkSetup size = some (s, dev, pdt, fmt)) :
    run (EdgeState.step Env.plain) (EdgeState.init [] fun _ => 0) (downlinkRun size) = some s ∧
      s.gDevMap.get (oidOf accessWloc [1, 1, 1, 1]) = some dev ∧ s.deref dev.pdt = some pdt ∧
      s.getG1Fmt pdt.topic 7 = some fmt := by
  simp only [downlinkSetup, Option.bind_eq_bind, Option.bind_eq_some_iff, Option.some.injEq,
    Prod.mk.injEq] at h
  obtain ⟨s₁, hrun, dev₁, hdev, pdt₁, hpdt, fmt₁, hfmt, rfl, rfl, rfl, rfl⟩ := h
  exact ⟨hrun, hdev, hpdt, hfmt⟩

/-- Sizes within the bounds, and whether the template is copied. -/
theorem downlinkSetup_eval (size : UInt32) (copied : Bool)
    (heval : (downlinkSetup size).map (fun r => decide
      (r.2.2.2.pktLen ≤ 64 ∧ r.2.2.2.size ≤ fmtPktSize ∧
        r.2.2.2.offset + r.2.2.2.len ≤ r.2.2.2.pktLen ∧ r.2.2.2.len = 1 ∧
        (r.2.2.2.TemplateCopied ↔ copied = true))) = some true) :
    ∃ s dev pdt fmt, downlinkSetup size = some (s, dev, pdt, fmt) ∧ fmt.pktLen ≤ 64 ∧
      fmt.size ≤ fmtPktSize ∧ fmt.offset + fmt.len ≤ fmt.pktLen ∧ fmt.len = 1 ∧
      (fmt.TemplateCopied ↔ copied = true) := by
  obtain ⟨⟨s, dev, pdt, fmt⟩, hsetup, hdec⟩ := Option.map_eq_some_iff.mp heval
  exact ⟨s, dev, pdt, fmt, hsetup, of_decide_eq_true hdec⟩

theorem carriesTemplate_iff_of_copied :
    ∃ s dev pdt fmt, downlinkSetup 10 = some (s, dev, pdt, fmt) ∧
      (s.CarriesTemplate dev 7 fmt [9] ↔ fmt.TemplateCopied) := by
  obtain ⟨s, dev, pdt, fmt, hsetup, hpktLen, hsize, hplace, hlen, _⟩ :=
    downlinkSetup_eval 10 true (by decide +kernel)
  obtain ⟨_, _, hpdt, hfmt⟩ := downlinkSetup_eq_some hsetup
  exact ⟨s, dev, pdt, fmt, hsetup,
    EdgeState.carriesTemplate_iff hpdt hfmt hpktLen hsize hplace hlen.symm⟩

/-- Four bytes of the template are copied, ten are sent. -/
theorem not_carriesTemplate_of_short_size :
    ∃ s dev pdt fmt, downlinkSetup 4 = some (s, dev, pdt, fmt) ∧ fmt.pktLen ≤ 64 ∧
      fmt.size ≤ fmtPktSize ∧ fmt.offset + fmt.len ≤ fmt.pktLen ∧ fmt.len = 1 ∧
      ¬ s.CarriesTemplate dev 7 fmt [9] := by
  obtain ⟨s, dev, pdt, fmt, hsetup, hpktLen, hsize, hplace, hlen, hcopied⟩ :=
    downlinkSetup_eval 4 false (by decide +kernel)
  obtain ⟨_, _, hpdt, hfmt⟩ := downlinkSetup_eq_some hsetup
  refine ⟨s, dev, pdt, fmt, hsetup, hpktLen, hsize, hplace, hlen, ?_⟩
  have hdata : [(9 : UInt8)].length = fmt.len := hlen.symm
  rw [EdgeState.carriesTemplate_iff_payload hpdt hfmt hpktLen hsize hplace hdata,
    sndPayload_take_iff (by omega) hplace hdata, hcopied]
  decide

/-! ## Which device it reaches -/

namespace EdgeState

/-- The packet is read as one for the device, and a packet for any other device
as one for another address. -/
structure CommandReaches (s : EdgeState) (dev : Dev) (key : UInt32) (data : List UInt8) :
    Prop where
  found : ∃ pkt address, s.Sends dev key data pkt ∧
    readAddress (Buf.ofBytes pkt) (UInt64.ofNat pkt.length) = some address ∧
    (s.getDev accessWloc (Buf.ofBytes address) address.length).val = some (some dev)
  distinct : ∀ oid' dev' key' data' pkt pkt', s.gDevMap.get oid' = some dev' → oid' ≠ dev.oid →
    s.Sends dev key data pkt → s.Sends dev' key' data' pkt' →
    readAddress (Buf.ofBytes pkt) (UInt64.ofNat pkt.length) ≠
      readAddress (Buf.ofBytes pkt') (UInt64.ofNat pkt'.length)

/-- The product of the device has no format at all. -/
def Silent (s : EdgeState) (dev : Dev) : Prop :=
  ∀ pdt key, s.deref dev.pdt = some pdt → s.getG1Fmt pdt.topic key = none

variable {s : EdgeState} {dev : Dev} {key : UInt32} {pdt : EdgePdt} {fmt : G1Fmt}

theorem silent_iff : s.Silent dev ↔ ∀ key data pkt, ¬ s.Sends dev key data pkt := by
  constructor
  · intro h key data pkt hsends
    obtain ⟨pdt, fmt, hpdt, hfmt, _⟩ := sends_iff.mp hsends
    rw [h pdt key hpdt] at hfmt
    cases hfmt
  · intro h pdt key hpdt
    cases hfmt : s.getG1Fmt pdt.topic key with
    | none => rfl
    | some fmt => exact absurd (sends_iff.mpr ⟨pdt, fmt, hpdt, hfmt, rfl⟩) (h key [] _)

/-- The device that is found is the one at the built-in address. -/
theorem getDev_sndAddr {oid : Oid} (hdev : s.gDevMap.get oid = some dev) :
    (s.getDev accessWloc (Buf.ofBytes sndAddr) sndAddr.length).val = some (some dev) ↔
      oid = oidOf accessWloc sndAddr := by
  have hbytes : (Buf.ofBytes sndAddr).bytes 0 sndAddr.length = sndAddr := Buf.ofBytes_bytes _
  rw [val_getDev, hbytes, Option.some.injEq]
  constructor
  · intro hfound
    exact (Registry.key_of_get hdev).symm.trans (Registry.key_of_get hfound)
  · rintro rfl
    exact hdev

/-- For every device and every format of its product, a command reaches the
device precisely if the device has the OID of the built-in address and no other
device can be sent a command. -/
theorem commandReaches_iff {addr : List UInt8}
    (hdev : s.gDevMap.get (oidOf accessWloc addr) = some dev)
    (hpdt : s.deref dev.pdt = some pdt) (hfmt : s.getG1Fmt pdt.topic key = some fmt)
    (data : List UInt8) :
    s.CommandReaches dev key data ↔
      oidOf accessWloc addr = oidOf accessWloc sndAddr ∧
        ∀ oid' dev', s.gDevMap.get oid' = some dev' → oid' ≠ oidOf accessWloc addr →
          s.Silent dev' := by
  have hoid : dev.oid = oidOf accessWloc addr := Registry.key_of_get hdev
  have hsends : s.Sends dev key data _ := sends_iff.mpr ⟨pdt, fmt, hpdt, hfmt, rfl⟩
  constructor
  · rintro ⟨⟨pkt, address, hpkt, haddress, hfound⟩, hdistinct⟩
    obtain rfl : sndAddr = address :=
      Option.some.inj ((readAddress_of_sends hpkt).symm.trans haddress)
    refine ⟨(getDev_sndAddr hdev).mp hfound, fun oid' dev' hdev' hne => ?_⟩
    refine silent_iff.mpr fun key' data' pkt' hpkt' => ?_
    apply hdistinct oid' dev' key' data' _ pkt' hdev' (hoid ▸ hne) hsends hpkt'
    rw [readAddress_of_sends hsends, readAddress_of_sends hpkt']
  · rintro ⟨heq, hsilent⟩
    refine ⟨⟨_, sndAddr, hsends, readAddress_of_sends hsends, (getDev_sndAddr hdev).mpr heq⟩, ?_⟩
    intro oid' dev' key' data' pkt pkt' hdev' hne _ hpkt'
    exact absurd hpkt' (silent_iff.mp (hsilent oid' dev' hdev' (hoid ▸ hne)) key' data' pkt')

end EdgeState

theorem commandReaches_iff_of_device :
    ∃ s dev pdt fmt, downlinkSetup 10 = some (s, dev, pdt, fmt) ∧
      (s.CommandReaches dev 7 [9] ↔
        oidOf accessWloc [1, 1, 1, 1] = oidOf accessWloc sndAddr ∧
          ∀ oid' dev', s.gDevMap.get oid' = some dev' → oid' ≠ oidOf accessWloc [1, 1, 1, 1] →
            s.Silent dev') := by
  obtain ⟨s, dev, pdt, fmt, hsetup, _⟩ := downlinkSetup_eval 10 true (by decide +kernel)
  obtain ⟨_, hdev, hpdt, hfmt⟩ := downlinkSetup_eq_some hsetup
  exact ⟨s, dev, pdt, fmt, hsetup, EdgeState.commandReaches_iff hdev hpdt hfmt [9]⟩

/-- The command for the device 01 01 01 01 goes to 20 C7 DD 11. -/
theorem not_commandReaches_of_other_address :
    ∃ s dev pdt fmt, downlinkSetup 10 = some (s, dev, pdt, fmt) ∧
      ¬ s.CommandReaches dev 7 [9] := by
  obtain ⟨s, dev, pdt, fmt, hsetup, _⟩ := downlinkSetup_eval 10 true (by decide +kernel)
  obtain ⟨_, hdev, _⟩ := downlinkSetup_eq_some hsetup
  refine ⟨s, dev, pdt, fmt, hsetup, ?_⟩
  rintro ⟨⟨pkt, address, hpkt, haddress, hfound⟩, _⟩
  obtain rfl : sndAddr = address :=
    Option.some.inj ((EdgeState.readAddress_of_sends hpkt).symm.trans haddress)
  have hoid := (EdgeState.getDev_sndAddr hdev).mp hfound
  exact absurd hoid (by decide +kernel)

end EceLib
