import EceLib.Edge.Format
import EceLib.Md5
import EceLib.Support.Words

/-!
# Devices

The model of `src/dev.c`.  A device is registered under the MD5 sum of its
access type and address, and is on two lists, the one of its product and the
age list.  While a packet is processed the device is a value of its own, and
`putDev` writes it back.
-/

namespace EceLib

open Support

/-- What the library takes from elsewhere: the verdict of the expression
evaluator on a rule, `none` for a syntax error, and the bytes in memory that
`malloc` returns. -/
structure Env where
  ruleEval : String → Option Bool
  uninit : ℕ → UInt8

/-- An evaluator that finds every rule malformed, and zeroed memory. -/
def Env.plain : Env where
  ruleEval := fun _ => none
  uninit := fun _ => 0

/-! ## Device identities -/

/-- The access type of most devices. -/
def accessWloc : UInt32 := 0

/-- `sprintf` with `%4.4x` or `%8.8x`. -/
def hexPadded (width : ℕ) (x : UInt32) : List Char :=
  (Nat.toDigits 16 x.toNat).leftpad width '0'

/-- The text `get_dev_oid` hashes. -/
def oidText (type : UInt32) (addr : List UInt8) : List Char :=
  hexPadded 4 type ++ addr.flatMap hexByte

def oidOf (type : UInt32) (addr : List UInt8) : Oid where
  chars := md5String (oidText type addr)
  length_chars := length_md5String _

/-- `sizeof(tmp)` in `get_dev_oid`. -/
def oidTmpSize : ℕ := 256

/-- `get_dev_oid`. -/
def getDevOid (type : UInt32) (addr : Buf) (addrLen : ℕ) : Traced Buffer Oid := do
  Traced.touch ⟨.addr, 0, addrLen, addr.size⟩
  Traced.touch ⟨.oidTmp, 0, (oidText type (addr.bytes 0 addrLen)).length + 1, oidTmpSize⟩
  pure (oidOf type (addr.bytes 0 addrLen))

/-! ## Attribute values -/

/-- What `memset` leaves in a new value. -/
def AttrMem.blank : AttrMem where
  bytes := List.replicate maxDeviceAttributeLen 0xFF ++ List.replicate maxDeviceAttributeLen 0
  length_bytes := rfl

/-- The bytes of a text and its terminator. -/
def textBytes (text : String) : List UInt8 :=
  (text.toList.map fun c => UInt8.ofNat c.toNat) ++ [0]

namespace EdgeState

/-- Copy `data` into the value of an attribute and convert it, if the attribute
is still registered.  The operations of a string have no `to_string`. -/
def setAttrVal (s : EdgeState) (attr : AttrVal) (data : List UInt8) : Option AttrVal :=
  let attr := { attr with mem := attr.mem.write 0 data }
  match s.getAttr attr.topic with
  | none => some attr
  | some ea =>
      (toStringOperation ea.type).map fun op =>
        { attr with mem := attr.mem.write maxDeviceAttributeLen (textBytes (op data)) }

/-- `add_dev_attr`, for an attribute the device does not have.  A first value
is compared with bytes `0xFF`.  From 65 bytes on a value is copied over the
topic that its entry is filed under, and the run ends. -/
def addDevAttr (s : EdgeState) (dev : Dev) (topic : UInt32) (data : List UInt8) :
    Traced Buffer (Option AttrVal × EdgeState × Dev) :=
  if topic = 0 ∨ data.length = 0 then pure (none, s, dev)
  else do
    let attr : AttrVal := { len := data.length, mem := AttrMem.blank, topic := topic }
    Traced.touch ⟨.attrVal, 0, data.length, maxDeviceAttributeLen⟩
    if attrMemSize < data.length then Traced.stop
    else if attr.mem.front data.length ≠ data then
      let attr ← Traced.lift (s.setAttrVal attr data)
      pure (some attr, s.tickClock,
        { dev with updateTs := s.now, attrMap := dev.attrMap.put attr })
    else
      pure (some attr, s, { dev with attrMap := dev.attrMap.put attr })

/-- `upt_dev_attr`. -/
def uptDevAttr (s : EdgeState) (dev : Dev) (topic : UInt32) (data : List UInt8) :
    Traced Buffer (Option AttrVal × EdgeState × Dev) :=
  if topic = 0 ∨ data.length = 0 then pure (none, s, dev)
  else
    let dev := { dev with ts := s.now }
    let s := s.tickClock
    match dev.attrMap.get topic with
    | none => s.addDevAttr dev topic data
    | some attr => do
        let attr := { attr with len := data.length }
        Traced.touch ⟨.attrVal, 0, data.length, maxDeviceAttributeLen⟩
        if attrMemSize < data.length then Traced.stop
        else if attr.mem.front data.length ≠ data then
          let attr ← Traced.lift (s.setAttrVal attr data)
          pure (some attr, s,
            { dev with updateTs := dev.ts, attrMap := dev.attrMap.put attr })
        else
          pure (some attr, s, { dev with attrMap := dev.attrMap.put attr })

/-! ## Adding and deleting devices -/

/-- Write back a device that was changed in place. -/
def putDev (s : EdgeState) (dev : Dev) : EdgeState := { s with gDevMap := s.gDevMap.put dev }

/-- `fresh_dev`. -/
def freshDev (s : EdgeState) (dev : Dev) : EdgeState × Dev :=
  let dev := { dev with ts := s.now }
  let s := { s.tickClock with gDevAgeHead := s.gDevAgeHead.erase dev.oid ++ [dev.oid] }
  (s.putDev dev, dev)

/-- The attribute map of a new device has buckets. -/
theorem attrMap_capacity_pos : 0 < 16 := by decide

/-- `__add_dev`. -/
def addDevInternal (s : EdgeState) (pdt : EdgePdt) (oid : Oid) (module : ℕ) :
    Option Dev × EdgeState :=
  if s.gDevMap.containsKey oid then (none, s)
  else
    let dev : Dev :=
      { oid := oid, module := module, attrMap := Registry.init 16 attrMap_capacity_pos, ts := s.now
        updateTs := 0, reportTs := 0, pdt := pdt.ptr }
    let pdt := { pdt with head := pdt.head ++ [oid] }
    (some dev,
      { s.tickClock with
        gDevMap := s.gDevMap.put dev
        gPdtMap := s.gPdtMap.put pdt
        gDevAgeHead := s.gDevAgeHead ++ [oid] })

/-- `add_dev`. -/
def addDev (s : EdgeState) (module : UInt16) (addr : Buf) (addrLen : ℕ)
    (type topic : UInt32) : Traced Buffer (Option Dev × EdgeState) :=
  if addrLen = 0 ∨ topic = 0 then pure (none, s)
  else
    match s.getPdt topic with
    | none => pure (none, s)
    | some pdt => do
        let oid ← getDevOid type addr addrLen
        pure (s.addDevInternal pdt oid module.toNat)

/-- `get_dev`. -/
def getDev (s : EdgeState) (type : UInt32) (addr : Buf) (addrLen : ℕ) :
    Traced Buffer (Option Dev) := do
  let oid ← getDevOid type addr addrLen
  pure (s.gDevMap.get oid)

/-- `__del_dev`.  Taking the device out of the list of its product needs the
product, which is the head of that list. -/
def delDevInternal (s : EdgeState) (dev : Dev) : Option EdgeState :=
  match s.deref dev.pdt with
  | none => none
  | some pdt =>
      let pdt := { pdt with head := pdt.head.erase dev.oid }
      some
        { s with
          gPdtMap := s.gPdtMap.put pdt
          gDevAgeHead := s.gDevAgeHead.erase dev.oid
          gDevMap := s.gDevMap.remove dev.oid }

/-- `del_dev`. -/
def delDev (s : EdgeState) (type : UInt32) (addr : Buf) (addrLen : ℕ) :
    Traced Buffer EdgeState :=
  if addrLen = 0 then pure s
  else do
    match ← s.getDev type addr addrLen with
    | none => pure s
    | some dev => Traced.lift (s.delDevInternal dev)

/-! ## Reporting -/

/-- `report_dev_attr`. -/
def reportDevAttr (s : EdgeState) (dev : Dev) (attr : AttrVal) : EdgeState :=
  { s with out := .report dev.oid attr s.ctl.scenerioId :: s.out }

/-- `hash_update_dev`, with `hash_update_attr` on every attribute. -/
def hashUpdateDev (s : EdgeState) (dev : Dev) : EdgeState :=
  if dev.updateTs > dev.reportTs then
    let s := dev.attrMap.entries.foldl (fun s entry => s.reportDevAttr dev entry.2) s
    s.putDev { dev with reportTs := dev.updateTs }
  else s

/-- `do_device_update`. -/
def doDeviceUpdate (s : EdgeState) : EdgeState :=
  let now := s.now
  let s := s.tickClock
  if s.updateLastSec = 0 then { s with updateLastSec := now }
  else if now - s.updateLastSec > s.ctl.upInterval.toNat then
    let s := s.gDevMap.entries.foldl (fun s entry => s.hashUpdateDev entry.2) s
    { s with updateLastSec := now }
  else s

/-! ## Ageing -/

/-- The loop of `do_device_ageing` over the age list; it ends at the first
device that is young enough. -/
def ageScan (now : ℕ) : List Oid → EdgeState → Option EdgeState
  | [], s => some s
  | oid :: next, s =>
      match s.gDevMap.get oid with
      | none => none
      | some dev =>
          if now - dev.ts > s.ctl.devAgeInterval.toNat then
            (s.delDevInternal dev).bind (ageScan now next)
          else some s

/-- `do_device_ageing`. -/
def doDeviceAgeing (s : EdgeState) : Option EdgeState :=
  let now := s.now
  let s := s.tickClock
  if s.ageLastSec = 0 then some { s with ageLastSec := now }
  else if now - s.ageLastSec > 60 then
    (ageScan now s.gDevAgeHead s).map fun s => { s with ageLastSec := now }
  else some s

/-! ## Sending to a device -/

/-- `sizeof(pkt)` in `send_pkt_to_device`. -/
def sndPktSize : ℕ := 256

/-- The packet `send_pkt_to_device` builds; what would land past its end is
dropped. -/
def sndPkt (fmt : G1Fmt) (key : UInt32) (data : List UInt8) : List UInt8 :=
  let pkt := List.replicate sndPktSize (0 : UInt8)
  let pkt := overwrite pkt 0 [0x83, 0x41, 0x20, 0xc7, 0xdd, 0x11]
  let pkt := overwrite pkt 6 (be32Bytes key ++ [0x01, UInt8.ofNat fmt.pktLen])
  let pkt := overwrite pkt 12 (fmt.pkt.take fmt.size)
  overwrite pkt (12 + fmt.offset) (data.take fmt.len)

/-- `send_pkt_to_device`. -/
def sendPktToDevice (s : EdgeState) (dev : Dev) (key : UInt32) (data : List UInt8) :
    Traced Buffer EdgeState :=
  match s.deref dev.pdt with
  | none => Traced.stop
  | some pdt =>
      match s.getG1Fmt pdt.topic key with
      | none => pure s
      | some fmt => do
          Traced.touch ⟨.fmtPkt, 0, fmt.size, fmtPktSize⟩
          Traced.touch ⟨.sndPkt, 12, fmt.size, sndPktSize⟩
          Traced.touch ⟨.sndData, 0, fmt.len, data.length⟩
          Traced.touch ⟨.sndPkt, 12 + fmt.offset, fmt.len, sndPktSize⟩
          Traced.touch ⟨.sndPkt, 0, 12 + fmt.pktLen, sndPktSize⟩
          let pkt := (sndPkt fmt key data).take (12 + fmt.pktLen)
          pure { s with out := .device dev.module pkt :: s.out }

/-! ## The rule engine -/

/-- The text `hash_get_attr_val` appends for an attribute to `rule_buf`, with
`sep` a comma, or to `lua_buf`, with a line feed. -/
def attrValText (sep : String) (attr : AttrVal) : String :=
  "a" ++ String.ofList (hexPadded 8 attr.topic) ++ "=" ++ attr.str ++ sep

def attrValTexts (sep : String) (dev : Dev) : String :=
  dev.attrMap.entries.foldl (fun buf entry => buf ++ attrValText sep entry.2) ""

/-- `sizeof(rule_buf)` and `sizeof(lua_buf)`. -/
def ruleBufSize : ℕ := 512

/-- `check_rule_engine`.  The Lua function is only run for what it prints. -/
def checkRuleEngine (env : Env) (s : EdgeState) (dev : Dev) : Traced Buffer EdgeState :=
  if dev.updateTs ≤ dev.reportTs then pure s
  else do
    let ruleBuf := attrValTexts "," dev ++ "(a00000002 + a00000001 + a00000003)>1"
    Traced.touch ⟨.ruleBuf, 0, ruleBuf.length + 1, ruleBufSize⟩
    Traced.touch ⟨.luaBuf, 0, (attrValTexts "\n" dev).length + 1, ruleBufSize⟩
    match env.ruleEval ruleBuf with
    | none => pure s
    | some passed => do
        let s ← if passed then s.sendPktToDevice dev 0x10000002 [0xFF, 0xFF, 0xFE] else pure s
        let luaBuf := attrValTexts "\n" dev ++
          " function test()\n print(a00000001 + a00000002 + a00000003)\n return 1 \nend"
        Traced.touch ⟨.luaBuf, 0, luaBuf.length + 1, ruleBufSize⟩
        pure s

/-! ## What the ageing loop does -/

/-- The loop deletes devices, one after the other: a relation that each deletion
keeps is kept by the loop. -/
theorem ageScan_rel {R : EdgeState → EdgeState → Prop} (hrefl : ∀ s, R s s)
    (htrans : ∀ s₁ s₂ s₃, R s₁ s₂ → R s₂ s₃ → R s₁ s₃)
    (hdel : ∀ s₁ s₂ oid dev, s₁.gDevMap.get oid = some dev → s₁.delDevInternal dev = some s₂ →
      R s₁ s₂)
    {now : ℕ} {oids : List Oid} {s s' : EdgeState} (h : ageScan now oids s = some s') : R s s' := by
  induction oids generalizing s with
  | nil =>
      cases h
      exact hrefl _
  | cons oid next ih =>
      unfold ageScan at h
      cases hdev : s.gDevMap.get oid with
      | none => simp [hdev] at h
      | some dev =>
          simp only [hdev] at h
          by_cases hold : now - dev.ts > s.ctl.devAgeInterval.toNat
          · rw [if_pos hold, Option.bind_eq_some_iff] at h
            obtain ⟨s₁, hs₁, hnext⟩ := h
            exact htrans _ _ _ (hdel s s₁ oid dev hdev hs₁) (ih hnext)
          · rw [if_neg hold] at h
            cases h
            exact hrefl _

end EdgeState

end EceLib
