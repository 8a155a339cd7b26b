import EceLib.Edge.Device

/-!
# Messages between the edge and the server

Every message is a `struct edge_mgt_tlv`: a type and a length in the byte order
of the host, and a body.  The words of the body are in network order, except
for those of Hello and Acknowledge.
-/

namespace EceLib

open Support

/-- `enum edge_mgt_protocol_type`. -/
inductive EdgeProType where
  | hello
  | ack
  | pdtAdd
  | pdtDel
  | g1FmtAdd
  | g1FmtDel
  | g1TokenAdd
  | g1TokenDel
  | devAdd
  | devDel
  | pkt
deriving DecidableEq

namespace EdgeProType

def code : EdgeProType → UInt32
  | hello => 0
  | ack => 1
  | pdtAdd => 2
  | pdtDel => 3
  | g1FmtAdd => 4
  | g1FmtDel => 5
  | g1TokenAdd => 6
  | g1TokenDel => 7
  | devAdd => 8
  | devDel => 9
  | pkt => 10

def all : List EdgeProType :=
  [hello, ack, pdtAdd, pdtDel, g1FmtAdd, g1FmtDel, g1TokenAdd, g1TokenDel, devAdd, devDel, pkt]

/-- The message type a code stands for. -/
def ofCode (type : UInt32) : Option EdgeProType := all.find? fun pro => pro.code = type

theorem ofCode_code (pro : EdgeProType) : ofCode pro.code = some pro := by
  cases pro <;> decide

end EdgeProType

/-- `EDGE_PRO_BUTT`, the number of names in `edge_msg`. -/
def edgeProButt : ℕ := EdgeProType.all.length

/-- `sizeof(struct edge_mgt_tlv)`. -/
def tlvSize : ℕ := 8

/-- The bytes of a message. -/
def tlvBytes (pro : EdgeProType) (body : List UInt8) : List UInt8 :=
  le32Bytes pro.code ++ le32Bytes (UInt32.ofNat body.length) ++ body

/-! ## Packets that are passed on to the server -/

/-- `sizeof(((struct edge_pkt *)0)->pkt)`. -/
def edgePktSize : ℕ := 256

/-- The `struct edge_pkt` that `mgt_send_pkt` fills.  A packet that is longer
than the field overwrites what comes behind it. -/
def edgePktBytes (env : Env) (status module : UInt32) (data : List UInt8) (len : UInt32) :
    List UInt8 :=
  overwrite
    (be32Bytes status ++ be32Bytes module ++ (List.range edgePktSize).map env.uninit
      ++ be32Bytes len)
    8 data

namespace EdgeState

/-- `mgt_send_msg`. -/
def mgtSendMsg (s : EdgeState) (msg : List UInt8) : EdgeState :=
  { s with out := .server msg :: s.out }

/-- `mgt_send_pkt`. -/
def mgtSendPkt (env : Env) (s : EdgeState) (status module : UInt32) (data : Buf)
    (len : UInt32) : Traced Buffer EdgeState := do
  Traced.touch ⟨.pkt, 0, len.toNat, data.size⟩
  Traced.touch ⟨.edgePkt, 0, len.toNat, edgePktSize⟩
  let body := edgePktBytes env status module (data.bytes 0 len.toNat) len
  pure (s.mgtSendMsg (tlvBytes .pkt body))

end EdgeState

/-- The message `mgt_send_pkt` sends. -/
def pktReport (env : Env) (status module : UInt32) (data : Buf) (len : UInt32) : List UInt8 :=
  tlvBytes .pkt (edgePktBytes env status module (data.bytes 0 len.toNat) len)

theorem val_mgtSendPkt (env : Env) (s : EdgeState) (status module : UInt32) (data : Buf)
    (len : UInt32) :
    (s.mgtSendPkt env status module data len).val =
      some (s.mgtSendMsg (pktReport env status module data len)) := by
  simp [EdgeState.mgtSendPkt, pktReport]

end EceLib
