import EceLib.Edge.Message

/-!
# Packets from the devices

The model of `src/g1.c`.  A pointer of `struct pkt_info` into the packet is an
offset, `none` for a null or an uninitialised one.  Sizes are `unsigned long`,
and their differences wrap around.
-/

namespace EceLib

open Support

/-- `enum g1_process_status`. -/
inductive G1ProcessStatus where
  | errPkt
  | noDevice
  | noPktFmt
  | rawPkt
deriving DecidableEq

/-- The value of a status; the first is also what success looks like. -/
def G1ProcessStatus.code : G1ProcessStatus → ℕ
  | errPkt => 0
  | noDevice => 1
  | noPktFmt => 2
  | rawPkt => 3

/-! ## The address field -/

def h1LenTbl : List ℕ := [6, 8, 16, 20, 0, 4, 0, 0]

def h2LenTbl : List ℕ := [0, 2, 4, 8]

def h3LenTbl : List ℕ := [0, 2, 4, 8]

/-- The fields of `struct pkt_info` about the address. -/
structure PktInfo where
  h1 : Option ℕ
  h1Len : ℕ
  h2 : Option ℕ
  h2Len : ℕ
  h3 : Option ℕ
  h3Len : ℕ

/-- After `memset(&info, 0x00, sizeof(info))`. -/
def PktInfo.zero : PktInfo where
  h1 := none
  h1Len := 0
  h2 := none
  h2Len := 0
  h3 := none
  h3Len := 0

/-- The length of the whole address. -/
def PktInfo.addrLen (info : PktInfo) : ℕ := info.h1Len + info.h2Len + info.h3Len

/-- `parse_address_filed`, on an address at offset `addr`.  A third part is
placed behind the second, also when there is none. -/
def parseAddressFiled (info : PktInfo) (addrCtrl : UInt8) (addr : ℕ) (size : UInt64) :
    ℕ × PktInfo :=
  let ctrl := addrCtrl.toNat
  let type := ctrl / 64
  if 1 < type then (0, info)
  else if type = 1 ∧ ctrl % 4 ≠ 1 then (0, info)
  else
    let info := { info with h1Len := h1LenTbl.getD (ctrl % 4 + 4 * type) 0, h1 := some addr }
    let info := { info with h2Len := h2LenTbl.getD (ctrl / 4 % 4) 0 }
    let info := if info.h2Len ≠ 0 then { info with h2 := some (addr + info.h1Len) } else info
    let info := { info with h3Len := h3LenTbl.getD (ctrl / 16 % 4) 0 }
    let info :=
      if info.h3Len ≠ 0 then { info with h3 := info.h2.map (· + info.h2Len) } else info
    (if size.toNat > info.addrLen then info.addrLen else 0, info)

/-! ## The message -/

/-- `sizeof(struct g1_msg)`. -/
def g1MsgSize : ℕ := 6

/-- `sizeof(log)` in `parse_msg` and `parse_g1_pkt`. -/
def logSize : ℕ := 256

/-- The token loop of `parse_msg`. -/
def tokenLoop (payload : Buf) (payloadLen : ℕ) :
    List G1Token → EdgeState → Dev → Traced Buffer (EdgeState × Dev)
  | [], s, dev => pure (s, dev)
  | token :: next, s, dev => do
      Traced.touch ⟨.payload, token.offset, token.len, payloadLen⟩
      let (attr, s, dev) ←
        s.uptDevAttr dev token.topic (payload.bytes token.offset token.len)
      let s :=
        match attr with
        | none => s
        | some attr => if s.ctl.upMode = .attr then s.reportDevAttr dev attr else s
      tokenLoop payload payloadLen next s dev

/-- The key of the message at `pkt`. -/
def msgKey (pkt : Buf) : UInt32 := pkt.be32 0

/-- The length of the payload: what the message says, or what is left of the
packet. -/
def msgPayloadLen (pkt : Buf) (size : UInt64) : ℕ :=
  min (pkt.mem 5).toNat (size.toNat - g1MsgSize)

namespace EdgeState

/-- `parse_msg`, on a message at `pkt` with `size` bytes to the end of the
packet. -/
def parseMsg (env : Env) (s : EdgeState) (dev : Dev) (pkt : Buf) (size : UInt64) :
    Traced Buffer (ℕ × EdgeState) :=
  if g1MsgSize > size.toNat then pure (G1ProcessStatus.errPkt.code, s)
  else do
    Traced.touch ⟨.pkt, 0, g1MsgSize, pkt.size⟩
    let payloadLen := msgPayloadLen pkt size
    let payload := pkt.drop g1MsgSize
    Traced.touch ⟨.pkt, g1MsgSize, payloadLen, pkt.size⟩
    Traced.touch ⟨.log, 0, 3 * payloadLen + 1, logSize⟩
    match s.deref dev.pdt with
    | none => Traced.stop
    | some pdt =>
        match s.getG1Fmt pdt.topic (msgKey pkt) with
        | none => pure (G1ProcessStatus.noPktFmt.code, s)
        | some fmt => do
            let (s, dev) ← tokenLoop payload payloadLen fmt.token s dev
            let s := s.putDev dev
            let s ← s.checkRuleEngine env dev
            pure (0, s)

/-- Print the bytes at a pointer of `struct pkt_info`. -/
def logAddr (pkt : Buf) (h : Option ℕ) (len : ℕ) : Traced Buffer Unit :=
  match h with
  | none => Traced.stop
  | some h => do
      Traced.touch ⟨.pkt, h, len, pkt.size⟩
      Traced.touch ⟨.log, 0, 3 * len + 1, logSize⟩

/-- The prints of the address levels in `parse_g1_pkt`. -/
def logLevels (pkt : Buf) (info : PktInfo) : Traced Buffer Unit := do
  logAddr pkt info.h1 info.h1Len
  if info.h2Len ≠ 0 then logAddr pkt info.h2 info.h2Len
  if info.h3Len ≠ 0 then logAddr pkt info.h3 info.h3Len

/-- `parse_g1_pkt`. -/
def parseG1Pkt (env : Env) (s : EdgeState) (type : UInt32) (pkt : Buf) (size : UInt64) :
    Traced Buffer (ℕ × EdgeState) := do
  Traced.touch ⟨.pkt, 0, 2, pkt.size⟩
  let (l, info) := parseAddressFiled .zero (pkt.mem 1) 2 (size - 2)
  if l = 0 then pure (G1ProcessStatus.errPkt.code, s)
  else do
    logLevels pkt info
    match ← s.getDev type (pkt.drop 2) info.addrLen with
    | none => pure (G1ProcessStatus.noDevice.code, s)
    | some dev =>
        let (s, dev) := s.freshDev dev
        s.parseMsg env dev (pkt.drop (2 + l)) (size - 2 - UInt64.ofNat l)

/-! ## Receiving -/

/-- `record_g1_pkt`.  The last field of the header is a pointer that is never
set. -/
def recordG1Pkt (env : Env) (s : EdgeState) (type : UInt32) (module : UInt64) (pkt : Buf)
    (size : UInt64) : EdgeState :=
  let header := be32Bytes module.toUInt32 ++ be32Bytes type ++ be32Bytes size.toUInt32
    ++ (List.range 8).map env.uninit
  { s with pktFile := s.pktFile ++ header ++ pkt.bytes 0 size.toNat }

/-- `edge_dp_rcv`. -/
def edgeDpRcv (env : Env) (s : EdgeState) (type : UInt32) (module : UInt64) (pkt : Buf)
    (size : UInt64) : Traced Buffer (ℕ × EdgeState) := do
  let s := if s.ctl.pktRecord = edgeFuncOn then s.recordG1Pkt env type module pkt size else s
  let s := s.tickClock
  let (lret, s) ← s.parseG1Pkt env type pkt size
  let s ←
    if lret ≠ 0 then
      s.mgtSendPkt env (UInt32.ofNat lret) module.toUInt32 pkt size.toUInt32
    else pure s
  pure (lret, s)

/-- `edge_rcv_pkt`. -/
def edgeRcvPkt (env : Env) (s : EdgeState) (type : UInt32) (module : UInt64) (pkt : Buf)
    (size : UInt64) : Traced Buffer (ℕ × EdgeState) :=
  if s.ctl.function ≠ edgeFuncOn then pure (1, s)
  else if size = 0 then pure (1, s)
  else do
    let (lret, s) ← s.edgeDpRcv env type module pkt size
    if lret = 0 ∧ s.ctl.upMode = .pkt then pure (G1ProcessStatus.rawPkt.code, s)
    else pure (lret, s)

end EdgeState

end EceLib
