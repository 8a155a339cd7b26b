import EceLib.Edge.Management

/-!
# The server

The model of the message half of `srv/srv_main.c`: the encoders of the eight
commands, and what the server answers to a message of an edge.
-/

namespace EceLib

open Support

/-! ## Encoders -/

/-- An array field of `size` zero bytes with `data` copied to its front.  The
callers keep to `size` bytes; what would land behind the field is dropped. -/
def srvField (size : ℕ) (data : List UInt8) : List UInt8 :=
  overwrite (List.replicate size 0) 0 data

def srvAddPdt (topic endian : UInt32) : List UInt8 :=
  tlvBytes .pdtAdd ([topic, endian].flatMap be32Bytes)

def srvDelPdt (topic : UInt32) : List UInt8 :=
  tlvBytes .pdtDel ([topic].flatMap be32Bytes)

def srvAddDev (addr : List UInt8) (topic linkType module : UInt32) : List UInt8 :=
  tlvBytes .devAdd
    (srvField mgtAddrSize addr
      ++ [UInt32.ofNat addr.length, linkType, module, topic].flatMap be32Bytes)

def srvDelDev (addr : List UInt8) (linkType : UInt32) : List UInt8 :=
  tlvBytes .devDel
    (srvField mgtAddrSize addr ++ [UInt32.ofNat addr.length, linkType].flatMap be32Bytes)

def srvAddG1Fmt (topic key size : UInt32) (pkt : List UInt8) (offset attrLen : UInt32) :
    List UInt8 :=
  tlvBytes .g1FmtAdd
    (srvField mgtPktSize pkt
      ++ [UInt32.ofNat pkt.length, topic, key, size, offset, attrLen].flatMap be32Bytes)

def srvDelG1Fmt (topic key : UInt32) : List UInt8 :=
  tlvBytes .g1FmtDel ([topic, key].flatMap be32Bytes)

def srvAddG1Token (topic key tokenTopic type offset len : UInt32) : List UInt8 :=
  tlvBytes .g1TokenAdd ([topic, key, tokenTopic, type, offset, len].flatMap be32Bytes)

def srvDelG1Token (topic key tokenTopic : UInt32) : List UInt8 :=
  tlvBytes .g1TokenDel ([topic, key, tokenTopic].flatMap be32Bytes)

/-! ## Answering an edge -/

/-- `client_ctl` and `client_stat`. -/
structure Server where
  status : EdgeMgtStatus
  function : UInt32
  scenerioId : UInt32
  clientStat : List UInt8

namespace Server

def init : Server where
  status := .online
  function := edgeFuncOn
  scenerioId := 15
  clientStat := List.replicate 14 0

/-- The Acknowledge that answers a Hello. -/
def ackBytes (srv : Server) : List UInt8 :=
  let status : UInt32 := match srv.status with | .offline => 0 | .online => 1
  tlvBytes .ack
    (le32Bytes status ++ le32Bytes srv.function ++ le32Bytes srv.scenerioId
      ++ List.replicate 24 0)

/-- The six commands that provide for a packet of a device with the address
`addr`: its product, the device, and a format for the message key. -/
def provisionMsgs (topic key module : UInt32) (addr : List UInt8) : List (List UInt8) :=
  [srvAddPdt topic 1,
    srvAddDev addr topic 0 module,
    srvAddG1Fmt topic key 10 [1, 2, 3, 4, 5] 1 3,
    srvAddG1Token topic key 1 0 0 1,
    srvAddG1Token topic key 2 0 1 1,
    srvAddG1Token topic key 3 0 2 1]

/-- The `EDGE_PRO_PKT` case of `rcv_edge_msg`, on a `struct edge_pkt`.  The
length and the two results of decoding the address go where the edge's own go;
the product topic is loaded in host order. -/
def rcvEdgePkt (msg : Buf) : Traced Buffer (List (List UInt8)) := do
  Traced.touch ⟨.msg, 0, 8 + edgePktSize + 4, msg.size⟩
  let module := msg.be32 4
  let pkt := (msg.drop 8).field edgePktSize
  let len := msg.be32 (8 + edgePktSize)
  let (_, info) := parseAddressFiled .zero (pkt.mem 1) 2 len.toUInt64
  match info.h1 with
  | none => Traced.stop
  | some h1 => do
      Traced.touch ⟨.edgePkt, h1, 4, pkt.size⟩
      Traced.touch ⟨.edgePkt, h1 + info.addrLen, 4, pkt.size⟩
      Traced.touch ⟨.edgePkt, h1, info.addrLen, pkt.size⟩
      let topic := pkt.le32 h1
      let key := pkt.be32 (h1 + info.addrLen)
      pure (provisionMsgs topic key module (pkt.bytes h1 info.addrLen))

/-- `rcv_edge_msg`: the messages sent to the edge and the state after it. -/
def rcvEdgeMsg (srv : Server) (msg : Buf) (len : ℕ) :
    Traced Buffer (List (List UInt8) × Server) :=
  if srv.status = .offline then pure ([], srv)
  else if len < tlvSize then pure ([], srv)
  else do
    Traced.touch ⟨.msg, 0, tlvSize, msg.size⟩
    Traced.touch ⟨.edgeMsg, (msg.le32 0).toNat, 1, edgeProButt⟩
    match EdgeProType.ofCode (msg.le32 0) with
    | some .hello => do
        Traced.touch ⟨.msg, tlvSize + mgtControlSize, 14, msg.size⟩
        let stat := msg.bytes (tlvSize + mgtControlSize) 14
        pure ([srv.ackBytes], { srv with clientStat := stat })
    | some .pkt => do
        let msgs ← rcvEdgePkt (msg.drop tlvSize)
        pure (msgs, srv)
    | _ => pure ([], srv)

end Server

end EceLib
