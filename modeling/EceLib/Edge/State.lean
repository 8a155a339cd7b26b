import EceLib.HashMap.Keys
import EceLib.HashMap.Registry
import EceLib.Support.CText
import EceLib.Support.Words

/-!
# The data of the edge library

The structures of `inc/attr.h`, `inc/pdt.h`, `inc/g1_fmt.h`, `inc/dev.h` and
`inc/mgt.h`, and the globals of `src/` gathered in one record.

Objects are held by value in the registry that owns them.  A `struct dev *` is
the OID under which the device is registered, and a node of one of the two
intrusive device lists is again that OID, so a list is the list of its nodes.
A `struct edge_pdt *` outlives the product in a device that was not told of its
deletion; it is the topic together with a serial number that no later product
gets, and it can be followed only while that product is registered.  Memory
allocation always succeeds.
-/

namespace EceLib

/-! ## Attributes -/

/-- `enum edge_attr_type`. -/
inductive EdgeAttrType where
  | num
  | str
deriving DecidableEq

/-- The type a 32-bit value stands for; from `EDGE_ATTR_BUTT` on there is none. -/
def EdgeAttrType.ofCode (type : UInt32) : Option EdgeAttrType :=
  if type = 0 then some .num else if type = 1 then some .str else none

structure EdgeAttr where
  topic : UInt32
  type : EdgeAttrType
  len : ℕ
  ref : ℕ

instance : Keyed UInt32 EdgeAttr := ⟨EdgeAttr.topic⟩

/-! ## Products and their packet formats -/

structure PdtAttr where
  ref : ℕ
  topic : UInt32

instance : Keyed UInt32 PdtAttr := ⟨PdtAttr.topic⟩

structure G1Token where
  topic : UInt32
  offset : ℕ
  len : ℕ
deriving DecidableEq

/-- `sizeof(((struct g1_fmt *)0)->pkt)`. -/
def fmtPktSize : ℕ := 128

structure G1Fmt where
  key : UInt32
  size : ℕ
  pkt : List UInt8
  pktLen : ℕ
  offset : ℕ
  len : ℕ
  token : List G1Token
deriving DecidableEq

instance : Keyed UInt32 G1Fmt := ⟨G1Fmt.key⟩

/-- A `struct edge_pdt *`. -/
structure PdtPtr where
  topic : UInt32
  serial : ℕ
deriving DecidableEq

structure EdgePdt where
  topic : UInt32
  endian : UInt32
  serial : ℕ
  head : List Oid
  attrMap : Registry UInt32 PdtAttr
  fmtMap : Registry UInt32 G1Fmt

instance : Keyed UInt32 EdgePdt := ⟨EdgePdt.topic⟩

def EdgePdt.ptr (pdt : EdgePdt) : PdtPtr := ⟨pdt.topic, pdt.serial⟩

/-! ## Devices -/

/-- `MAX_DEVICE_ATTRIBUTE_LEN`. -/
def maxDeviceAttributeLen : ℕ := 32

/-- `sizeof(val) + sizeof(str)` in a `struct attr_val`. -/
def attrMemSize : ℕ := 64

/-- The bytes of `val` and of `str` behind it: a value that is too long for the
first array runs on in the second. -/
abbrev AttrMem := Support.Block attrMemSize

structure AttrVal where
  len : ℕ
  mem : AttrMem
  topic : UInt32
deriving DecidableEq

/-- The text at `str`.  Without a terminator there it runs on in `topic`, and it
ends in the padding behind `topic`. -/
def AttrVal.str (attr : AttrVal) : String :=
  String.ofList ((Support.textOf
    (attr.mem.bytes.drop maxDeviceAttributeLen ++ Support.le32Bytes attr.topic)).map fun b =>
      Char.ofNat b.toNat)

instance : Keyed UInt32 AttrVal := ⟨AttrVal.topic⟩

structure Dev where
  oid : Oid
  module : ℕ
  attrMap : Registry UInt32 AttrVal
  ts : ℕ
  updateTs : ℕ
  reportTs : ℕ
  pdt : PdtPtr

instance : Keyed Oid Dev := ⟨Dev.oid⟩

/-! ## Management -/

/-- `enum edge_mgt_status`. -/
inductive EdgeMgtStatus where
  | offline
  | online
deriving DecidableEq

/-- `enum edge_up_mode`. -/
inductive EdgeUpMode where
  | attr
  | attrPeriodic
  | pkt
deriving DecidableEq

/-- `EDGE_FUNC_OFF` and `EDGE_FUNC_ON`; an Acknowledge can bring other values. -/
def edgeFuncOff : UInt32 := 0

def edgeFuncOn : UInt32 := 1

structure EdgeMgtControl where
  status : EdgeMgtStatus
  function : UInt32
  scenerioId : UInt32
  helloInterval : UInt32
  timeoutNum : UInt32
  devAgeInterval : UInt32
  upMode : EdgeUpMode
  upInterval : UInt32
  pktRecord : UInt32

structure EdgeMgtStat where
  mac : List UInt8
  linkType : UInt32
  timeout : UInt32

/-! ## The state of the library -/

/-- What leaves the library. -/
inductive Output where
  /-- A call of `report_dev_attr`: the report on `MQTT_OASIS_APP` carries the
  OID, the topic and `str` of the attribute value, and the scenario. -/
  | report (oid : Oid) (attr : AttrVal) (scenerioId : UInt32)
  /-- A message on `MQTT_OASIS_EDGE_SERVER_TOPIC`. -/
  | server (msg : List UInt8)
  /-- A packet handed to `app_snd`. -/
  | device (module : ℕ) (pkt : List UInt8)

/-- The globals, the statics of `do_device_ageing`, `do_device_update` and
`do_mgt_periodic`, the record file, the readings `time(NULL)` is going to return, and what has been
sent, the latest first. -/
structure EdgeState where
  gAttrMap : Registry UInt32 EdgeAttr
  gPdtMap : Registry UInt32 EdgePdt
  gDevMap : Registry Oid Dev
  gDevAgeHead : List Oid
  ctl : EdgeMgtControl
  stat : EdgeMgtStat
  nextSerial : ℕ
  ageLastSec : ℕ
  updateLastSec : ℕ
  tick : ℕ
  pktFile : List UInt8
  clock : ℕ → ℕ
  out : List Output

namespace EdgeState

/-- After `attr_init`, `dev_init`, `pdt_init` and `mgt_init`. -/
def init (mac : List UInt8) (clock : ℕ → ℕ) : EdgeState where
  gAttrMap := Registry.init 64 (by decide)
  gPdtMap := Registry.init 16 (by decide)
  gDevMap := Registry.init 16 (by decide)
  gDevAgeHead := []
  ctl :=
    { status := .offline, function := edgeFuncOn, scenerioId := 0, helloInterval := 240,
      timeoutNum := 3, devAgeInterval := 1200, upMode := .attrPeriodic, upInterval := 10,
      pktRecord := edgeFuncOff }
  stat := { mac := mac, linkType := 0, timeout := 0 }
  nextSerial := 0
  ageLastSec := 0
  updateLastSec := 0
  tick := 0
  pktFile := []
  clock := clock
  out := []

/-- What `time(NULL)` returns now. -/
def now (s : EdgeState) : ℕ := s.clock 0

/-- The state after a call of `time(NULL)`. -/
def tickClock (s : EdgeState) : EdgeState := { s with clock := fun i => s.clock (i + 1) }

/-- Follow a `struct edge_pdt *`; `none` if the product has been freed. -/
def deref (s : EdgeState) (ptr : PdtPtr) : Option EdgePdt :=
  (s.gPdtMap.get ptr.topic).filter fun pdt => pdt.serial = ptr.serial

/-- `get_pdt`. -/
def getPdt (s : EdgeState) (topic : UInt32) : Option EdgePdt := s.gPdtMap.get topic

/-- `get_g1_fmt`. -/
def getG1Fmt (s : EdgeState) (topic key : UInt32) : Option G1Fmt :=
  match s.getPdt topic with
  | none => none
  | some pdt => pdt.fmtMap.get key

/-- `get_attr`. -/
def getAttr (s : EdgeState) (topic : UInt32) : Option EdgeAttr := s.gAttrMap.get topic

theorem deref_eq_some_iff {s : EdgeState} {ptr : PdtPtr} {pdt : EdgePdt} :
    s.deref ptr = some pdt ↔ s.gPdtMap.get ptr.topic = some pdt ∧ pdt.ptr = ptr := by
  rw [deref, Option.filter_eq_some_iff]
  constructor
  · rintro ⟨hget, hserial⟩
    have htopic : pdt.topic = ptr.topic := Registry.key_of_get hget
    refine ⟨hget, ?_⟩
    rw [EdgePdt.ptr, htopic, of_decide_eq_true hserial]
  · rintro ⟨hget, rfl⟩
    exact ⟨hget, by simp [EdgePdt.ptr]⟩

end EdgeState

/-! ## The buffers the code works on -/

/-- The buffers whose accesses are recorded. -/
inductive Buffer where
  /-- a received packet -/
  | pkt
  /-- the payload of a received packet -/
  | payload
  /-- a device address -/
  | addr
  /-- a received management message -/
  | msg
  /-- the message name table `edge_msg` -/
  | edgeMsg
  /-- the template field of an AddPacketFormat message -/
  | fmtAddPkt
  /-- `pkt` of a `struct g1_fmt` -/
  | fmtPkt
  /-- `tmp` of `get_dev_oid` -/
  | oidTmp
  /-- `log` of `parse_g1_pkt` and of `parse_msg` -/
  | log
  /-- `val` of a `struct attr_val` -/
  | attrVal
  /-- `rule_buf` and `lua_buf` -/
  | ruleBuf
  | luaBuf
  /-- the data and the packet of `send_pkt_to_device` -/
  | sndData
  | sndPkt
  /-- the packet field of a `struct edge_pkt` -/
  | edgePkt
deriving DecidableEq

end EceLib
