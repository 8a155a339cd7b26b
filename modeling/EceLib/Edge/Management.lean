import EceLib.Edge.Packet
import EceLib.Edge.Product

/-!
# Management messages

The model of `src/mgt.c`: what the server can order, how the orders are decoded
from a message, and the periodic work.  A `Command` holds the arguments as they
stand in the message, with the byte arrays as pointers into it.
-/

namespace EceLib

open Support

/-- The commands of the server. -/
inductive Command where
  | addProduct (topic endian : UInt32)
  | delProduct (topic : UInt32)
  | addPacketFormat (pkt : Buf) (pktLen topic key size offset len : UInt32)
  | delPacketFormat (topic key : UInt32)
  | addFormatToken (topic key tokenTopic type offset len : UInt32)
  | delFormatToken (topic key tokenTopic : UInt32)
  | addDevice (addr : Buf) (len linkType module topic : UInt32)
  | delDevice (addr : Buf) (len linkType : UInt32)

/-- The call a command is turned into. -/
def Command.exec (s : EdgeState) : Command → Traced Buffer EdgeState
  | addProduct topic endian => pure (s.addPdt topic endian).2
  | delProduct topic => pure (s.delPdt topic)
  | addPacketFormat pkt pktLen topic key size offset len =>
      addG1Fmt s topic key size.toNat pkt pktLen.toNat offset.toNat len.toNat
  | delPacketFormat topic key => pure (delG1Fmt s topic key)
  | addFormatToken topic key tokenTopic type offset len =>
      pure (addG1Token s topic key tokenTopic type offset.toNat len.toNat).2
  | delFormatToken topic key tokenTopic => pure (delG1Token s topic key tokenTopic)
  | addDevice addr len linkType module topic => do
      let (_, s) ← s.addDev module.toUInt16 addr len.toNat linkType topic
      pure s
  | delDevice addr len linkType => s.delDev linkType addr len.toNat

/-! ## Decoding -/

/-- The sizes of the packed structures of `inc/mgt.h`; the addresses and the
templates have 64 bytes. -/
def mgtPktSize : ℕ := 64

def mgtAddrSize : ℕ := 64

/-- `sizeof(struct edge_mgt_control)`. -/
def mgtControlSize : ℕ := 36

/-- The size of the body of a message that `mgt_rcv_msg` acts on. -/
def EdgeProType.bodySize : EdgeProType → Option ℕ
  | ack => some mgtControlSize
  | pdtAdd => some 8
  | pdtDel => some 4
  | g1FmtAdd => some (mgtPktSize + 24)
  | g1FmtDel => some 8
  | g1TokenAdd => some 24
  | g1TokenDel => some 12
  | devAdd => some (mgtAddrSize + 16)
  | devDel => some (mgtAddrSize + 8)
  | hello | pkt => none

/-- The command in a message body of sufficient size. -/
def EdgeProType.command (msg : Buf) : EdgeProType → Option Command
  | pdtAdd => some (.addProduct (msg.be32 0) (msg.be32 4))
  | pdtDel => some (.delProduct (msg.be32 0))
  | g1FmtAdd =>
      some (.addPacketFormat (msg.field mgtPktSize) (msg.be32 64) (msg.be32 68) (msg.be32 72)
        (msg.be32 76) (msg.be32 80) (msg.be32 84))
  | g1FmtDel => some (.delPacketFormat (msg.be32 0) (msg.be32 4))
  | g1TokenAdd =>
      some (.addFormatToken (msg.be32 0) (msg.be32 4) (msg.be32 8) (msg.be32 12)
        (msg.be32 16) (msg.be32 20))
  | g1TokenDel => some (.delFormatToken (msg.be32 0) (msg.be32 4) (msg.be32 8))
  | devAdd =>
      some (.addDevice (msg.field mgtAddrSize) (msg.be32 64) (msg.be32 68) (msg.be32 72)
        (msg.be32 76))
  | devDel => some (.delDevice (msg.field mgtAddrSize) (msg.be32 64) (msg.be32 68))
  | hello | ack | pkt => none

/-- The command `mgt_rcv_msg` executes on a message, if any. -/
def decodeCommand (msg : Buf) (len : ℕ) : Option Command :=
  if len < tlvSize then none
  else
    match EdgeProType.ofCode (msg.le32 0) with
    | none => none
    | some pro =>
        match pro.bodySize with
        | none => none
        | some size =>
            if len - tlvSize < size then none else pro.command (msg.drop tlvSize)

namespace EdgeState

/-- The `EDGE_PRO_ACK` case of `mgt_rcv_msg`. -/
def rcvAck (s : EdgeState) (msg : Buf) : EdgeState :=
  { s with ctl :=
      { s.ctl with scenerioId := msg.le32 8, status := .online, function := msg.le32 4 } }

/-- `mgt_rcv_msg`: what it returns and the state after it. -/
def mgtRcvMsg (s : EdgeState) (msg : Buf) (len : ℕ) : Traced Buffer (ℕ × EdgeState) :=
  if len < tlvSize then pure (1, s)
  else do
    let s := { s with stat := { s.stat with timeout := 0 } }
    Traced.touch ⟨.msg, 0, tlvSize, msg.size⟩
    Traced.touch ⟨.edgeMsg, (msg.le32 0).toNat, 1, edgeProButt⟩
    match EdgeProType.ofCode (msg.le32 0) with
    | none => pure (0, s)
    | some pro =>
        match pro.bodySize with
        | none => pure (0, s)
        | some size =>
            if len - tlvSize < size then pure (0, s)
            else do
              Traced.touch ⟨.msg, tlvSize, size, msg.size⟩
              match pro.command (msg.drop tlvSize) with
              | none => pure (0, s.rcvAck (msg.drop tlvSize))
              | some command => do
                  let s ← command.exec s
                  pure (0, s)

/-! ## Periodic work -/

/-- The body of a Hello message; `timeout` in it is never set. -/
def helloBytes (env : Env) (s : EdgeState) : List UInt8 :=
  let status : UInt32 := match s.ctl.status with | .offline => 0 | .online => 1
  le32Bytes status ++ le32Bytes s.ctl.function ++ (List.range 28).map env.uninit
    ++ s.stat.mac ++ le32Bytes s.stat.linkType ++ (List.range 4).map env.uninit

/-- `mgt_send_hello_msg`. -/
def mgtSendHelloMsg (env : Env) (s : EdgeState) : EdgeState :=
  let s := s.mgtSendMsg (tlvBytes .hello (s.helloBytes env))
  if s.ctl.status = .online then
    { s with stat := { s.stat with timeout := s.stat.timeout + 1 } }
  else s

/-- The front of `do_mgt_periodic`: a Hello when it is due, and the end of the
connection when too many of them were not answered. -/
def keepAlive (env : Env) (s : EdgeState) : EdgeState :=
  let s := if s.tick % s.ctl.helloInterval.toNat = 0 then s.mgtSendHelloMsg env else s
  if s.stat.timeout ≥ s.ctl.timeoutNum ∧ s.ctl.status = .online then
    { s with ctl := { s.ctl with status := .offline } }
  else s

/-- `do_mgt_periodic`; the remainder by a zero interval traps. -/
def doMgtPeriodic (env : Env) (s : EdgeState) : Option EdgeState :=
  if s.ctl.helloInterval = 0 then none
  else
    (s.tickClock.keepAlive env).doDeviceAgeing.map fun s =>
      let s := if s.ctl.upMode = .attrPeriodic then s.doDeviceUpdate else s
      { s with tick := s.tick + 1 }

end EdgeState

end EceLib
