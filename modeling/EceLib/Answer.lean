import EceLib.Edge.Processing
import EceLib.Edge.System
import EceLib.Server

/-!
# What the edge makes of the messages of the server

Every message the server encodes is decoded by `mgt_rcv_msg` to the command it
was made for, and is executed with the arguments the server gave.
-/

namespace EceLib

open Support

/-- The event of a message that arrives whole. -/
def Event.ofMsg (msg : List UInt8) : Event := .message (Buf.ofBytes msg) msg.length

theorem length_tlvBytes (pro : EdgeProType) (body : List UInt8) :
    (tlvBytes pro body).length = tlvSize + body.length := by
  simp [tlvBytes, tlvSize]
  omega

theorem le32_tlvBytes (pro : EdgeProType) (body : List UInt8) :
    (Buf.ofBytes (tlvBytes pro body)).le32 0 = pro.code := by
  rw [tlvBytes, List.append_assoc]
  exact Buf.le32_le32Bytes _ _

theorem tlvBytes_drop (pro : EdgeProType) (body : List UInt8) :
    (Buf.ofBytes (tlvBytes pro body)).drop tlvSize = Buf.ofBytes body :=
  Buf.ofBytes_append_drop (le32Bytes pro.code ++ le32Bytes (UInt32.ofNat body.length)) body

/-- A message with a body of the right size has its command executed. -/
theorem step_tlvBytes (env : Env) (s : EdgeState) {pro : EdgeProType} {body : List UInt8}
    {c : Command} (hsize : pro.bodySize = some body.length)
    (hc : pro.command (Buf.ofBytes body) = some c) :
    s.step env (.ofMsg (tlvBytes pro body)) = (c.exec s.answered).val := by
  have hlen : ¬ (tlvBytes pro body).length < tlvSize := by
    rw [length_tlvBytes]
    omega
  have hbody : ¬ (tlvBytes pro body).length - tlvSize < body.length := by
    rw [length_tlvBytes]
    omega
  unfold Event.ofMsg EdgeState.step EdgeState.mgtRcvMsg
  simp only [hlen, if_false, le32_tlvBytes, EdgeProType.ofCode_code, hsize, hbody, tlvBytes_drop,
    hc, Traced.val_bind, Traced.val_touch, Option.bind_some]
  change Option.map Prod.snd ((c.exec s.answered).val.bind fun s => some (0, s)) = _
  cases (c.exec s.answered).val <;> rfl

/-! ## The commands of an answer -/

theorem step_srvAddPdt (env : Env) (s : EdgeState) (topic endian : UInt32) :
    s.step env (.ofMsg (srvAddPdt topic endian)) = some (s.answered.addPdt topic endian).2 := by
  have hword : ∀ i w, [topic, endian][i]? = some w →
      (Buf.ofBytes ([topic, endian].flatMap be32Bytes)).be32 (4 * i) = w :=
    fun i w h => Buf.be32_words h
  apply step_tlvBytes env s (c := .addProduct topic endian) rfl
  simp only [EdgeProType.command]
  rw [hword 0 topic rfl, hword 1 endian rfl]

theorem step_srvDelPdt (env : Env) (s : EdgeState) (topic : UInt32) :
    s.step env (.ofMsg (srvDelPdt topic)) = some (s.answered.delPdt topic) := by
  have hword : ∀ i w, [topic][i]? = some w →
      (Buf.ofBytes ([topic].flatMap be32Bytes)).be32 (4 * i) = w := fun i w h => Buf.be32_words h
  apply step_tlvBytes env s (c := .delProduct topic) rfl
  simp only [EdgeProType.command]
  rw [hword 0 topic rfl]

theorem step_srvDelG1Fmt (env : Env) (s : EdgeState) (topic key : UInt32) :
    s.step env (.ofMsg (srvDelG1Fmt topic key)) = some (delG1Fmt s.answered topic key) := by
  have hword : ∀ i w, [topic, key][i]? = some w →
      (Buf.ofBytes ([topic, key].flatMap be32Bytes)).be32 (4 * i) = w :=
    fun i w h => Buf.be32_words h
  apply step_tlvBytes env s (c := .delPacketFormat topic key) rfl
  simp only [EdgeProType.command]
  rw [hword 0 topic rfl, hword 1 key rfl]

theorem step_srvAddG1Token (env : Env) (s : EdgeState)
    (topic key tokenTopic type offset len : UInt32) :
    s.step env (.ofMsg (srvAddG1Token topic key tokenTopic type offset len)) =
      some (addG1Token s.answered topic key tokenTopic type offset.toNat len.toNat).2 := by
  have hword : ∀ i w, [topic, key, tokenTopic, type, offset, len][i]? = some w →
      (Buf.ofBytes ([topic, key, tokenTopic, type, offset, len].flatMap be32Bytes)).be32 (4 * i) =
        w := fun i w h => Buf.be32_words h
  apply step_tlvBytes env s (c := .addFormatToken topic key tokenTopic type offset len) rfl
  simp only [EdgeProType.command]
  rw [hword 0 topic rfl, hword 1 key rfl, hword 2 tokenTopic rfl, hword 3 type rfl,
    hword 4 offset rfl, hword 5 len rfl]

theorem step_srvDelG1Token (env : Env) (s : EdgeState) (topic key tokenTopic : UInt32) :
    s.step env (.ofMsg (srvDelG1Token topic key tokenTopic)) =
      some (delG1Token s.answered topic key tokenTopic) := by
  have hword : ∀ i w, [topic, key, tokenTopic][i]? = some w →
      (Buf.ofBytes ([topic, key, tokenTopic].flatMap be32Bytes)).be32 (4 * i) = w :=
    fun i w h => Buf.be32_words h
  apply step_tlvBytes env s (c := .delFormatToken topic key tokenTopic) rfl
  simp only [EdgeProType.command]
  rw [hword 0 topic rfl, hword 1 key rfl, hword 2 tokenTopic rfl]

/-- An array that fits its field is found at the front of it. -/
theorem srvField_eq {size : ℕ} {data : List UInt8} (h : data.length ≤ size) :
    srvField size data = data ++ List.replicate (size - data.length) 0 := by
  simp [srvField, overwrite, List.take_of_length_le h]

theorem length_srvField {size : ℕ} {data : List UInt8} (h : data.length ≤ size) :
    (srvField size data).length = size := by
  rw [srvField_eq h, List.length_append, List.length_replicate]
  omega

theorem bytes_srvField {size : ℕ} {data : List UInt8} (h : data.length ≤ size)
    (r : List UInt8) : (Buf.ofBytes (srvField size data ++ r)).bytes 0 data.length = data := by
  rw [srvField_eq h, List.append_assoc]
  exact Buf.bytes_append_left _ _

/-- The words behind an array field. -/
theorem be32_srvField {size : ℕ} {data : List UInt8} (h : data.length ≤ size)
    {ws : List UInt32} {i : ℕ} {w : UInt32} (hw : ws[i]? = some w) :
    (Buf.ofBytes (srvField size data ++ ws.flatMap be32Bytes)).be32 (size + 4 * i) = w := by
  have hword := Buf.be32_append_flatMap hw (srvField size data)
  rwa [length_srvField h] at hword

/-- The state after `add_dev` for a device of the given address. -/
def EdgeState.afterAddDev (s : EdgeState) (module : UInt16) (addr : List UInt8)
    (type topic : UInt32) : EdgeState :=
  if addr.length = 0 ∨ topic = 0 then s
  else
    match s.getPdt topic with
    | none => s
    | some pdt => (s.addDevInternal pdt (oidOf type addr) module.toNat).2

theorem EdgeState.val_addDev (s : EdgeState) (module : UInt16) (addr : Buf) (addrLen : ℕ)
    (type topic : UInt32) :
    (s.addDev module addr addrLen type topic).val.map Prod.snd =
      some (s.afterAddDev module (addr.bytes 0 addrLen) type topic) := by
  unfold addDev afterAddDev
  rw [Buf.length_bytes]
  by_cases hargs : addrLen = 0 ∨ topic = 0
  · simp [hargs]
  · simp only [hargs, if_false]
    cases hpdt : s.getPdt topic with
    | none => simp
    | some pdt => simp [getDevOid]

theorem step_srvAddDev (env : Env) (s : EdgeState) {addr : List UInt8}
    (topic linkType module : UInt32) (haddr : addr.length ≤ mgtAddrSize) :
    s.step env (.ofMsg (srvAddDev addr topic linkType module)) =
      some (s.answered.afterAddDev module.toUInt16 addr linkType topic) := by
  let words := [UInt32.ofNat addr.length, linkType, module, topic]
  let body := srvField mgtAddrSize addr ++ words.flatMap be32Bytes
  have hlen : (UInt32.ofNat addr.length).toNat = addr.length := by
    have hsmall : mgtAddrSize < 2 ^ 32 := by decide
    rw [UInt32.toNat_ofNat']
    omega
  have hsize : EdgeProType.devAdd.bodySize = some body.length := by
    simp [body, words, EdgeProType.bodySize, length_srvField haddr]
  have hword : ∀ i w, words[i]? = some w → (Buf.ofBytes body).be32 (64 + 4 * i) = w :=
    fun i w h => be32_srvField haddr h
  have hcommand : EdgeProType.devAdd.command (Buf.ofBytes body) =
      some (.addDevice ((Buf.ofBytes body).field mgtAddrSize) (UInt32.ofNat addr.length) linkType
        module topic) := by
    simp only [EdgeProType.command]
    rw [hword 0 _ rfl, hword 1 _ rfl, hword 2 _ rfl, hword 3 _ rfl]
  have hbytes : ((Buf.ofBytes body).field mgtAddrSize).bytes 0 addr.length = addr :=
    bytes_srvField haddr _
  have hadd := EdgeState.val_addDev s.answered module.toUInt16
    ((Buf.ofBytes body).field mgtAddrSize) addr.length linkType topic
  rw [hbytes] at hadd
  rw [srvAddDev, step_tlvBytes env s hsize hcommand, ← hadd]
  simp [Command.exec, hlen, Option.map_eq_bind]

/-- What `del_dev` does, by the registered device. -/
theorem EdgeState.val_delDev (s : EdgeState) (type : UInt32) (addr : Buf) (addrLen : ℕ) :
    (s.delDev type addr addrLen).val =
      if addrLen = 0 then some s
      else
        match s.gDevMap.get (oidOf type (addr.bytes 0 addrLen)) with
        | none => some s
        | some dev => s.delDevInternal dev := by
  unfold delDev
  by_cases hlen : addrLen = 0
  · simp [hlen]
  · simp only [hlen, if_false, Traced.val_bind, val_getDev, Option.bind_some]
    cases s.gDevMap.get (oidOf type (addr.bytes 0 addrLen)) <;> rfl

theorem step_srvDelDev (env : Env) (s : EdgeState) {addr : List UInt8} (linkType : UInt32)
    (haddr : addr.length ≤ mgtAddrSize) :
    s.step env (.ofMsg (srvDelDev addr linkType)) =
      (s.answered.delDev linkType (Buf.ofBytes addr) addr.length).val := by
  let words := [UInt32.ofNat addr.length, linkType]
  let body := srvField mgtAddrSize addr ++ words.flatMap be32Bytes
  have hlen : (UInt32.ofNat addr.length).toNat = addr.length := by
    have hsmall : mgtAddrSize < 2 ^ 32 := by decide
    rw [UInt32.toNat_ofNat']
    omega
  have hsize : EdgeProType.devDel.bodySize = some body.length := by
    simp [body, words, EdgeProType.bodySize, length_srvField haddr]
  have hword : ∀ i w, words[i]? = some w → (Buf.ofBytes body).be32 (64 + 4 * i) = w :=
    fun i w h => be32_srvField haddr h
  have hcommand : EdgeProType.devDel.command (Buf.ofBytes body) =
      some (.delDevice ((Buf.ofBytes body).field mgtAddrSize) (UInt32.ofNat addr.length)
        linkType) := by
    simp only [EdgeProType.command]
    rw [hword 0 _ rfl, hword 1 _ rfl]
  have hbytes : ((Buf.ofBytes body).field mgtAddrSize).bytes 0 addr.length =
      (Buf.ofBytes addr).bytes 0 addr.length := by
    rw [Buf.ofBytes_bytes]
    exact bytes_srvField haddr _
  rw [srvDelDev, step_tlvBytes env s hsize hcommand, Command.exec, hlen, EdgeState.val_delDev,
    EdgeState.val_delDev, hbytes]

theorem step_srvAddG1Fmt (env : Env) (s : EdgeState) (topic key size : UInt32)
    {pkt : List UInt8} (offset attrLen : UInt32) (hpkt : pkt.length ≤ mgtPktSize) :
    s.step env (.ofMsg (srvAddG1Fmt topic key size pkt offset attrLen)) =
      (addG1Fmt s.answered topic key size.toNat (Buf.ofBytes pkt) pkt.length offset.toNat
        attrLen.toNat).val := by
  let words := [UInt32.ofNat pkt.length, topic, key, size, offset, attrLen]
  let body := srvField mgtPktSize pkt ++ words.flatMap be32Bytes
  have hlen : (UInt32.ofNat pkt.length).toNat = pkt.length := by
    have hsmall : mgtPktSize < 2 ^ 32 := by decide
    rw [UInt32.toNat_ofNat']
    omega
  have hsize : EdgeProType.g1FmtAdd.bodySize = some body.length := by
    simp [body, words, EdgeProType.bodySize, length_srvField hpkt]
  have hword : ∀ i w, words[i]? = some w → (Buf.ofBytes body).be32 (64 + 4 * i) = w :=
    fun i w h => be32_srvField hpkt h
  have hcommand : EdgeProType.g1FmtAdd.command (Buf.ofBytes body) =
      some (.addPacketFormat ((Buf.ofBytes body).field mgtPktSize) (UInt32.ofNat pkt.length) topic
        key size offset attrLen) := by
    simp only [EdgeProType.command]
    rw [hword 0 _ rfl, hword 1 _ rfl, hword 2 _ rfl, hword 3 _ rfl, hword 4 _ rfl, hword 5 _ rfl]
  have hbytes : ((Buf.ofBytes body).field mgtPktSize).bytes 0 pkt.length =
      (Buf.ofBytes pkt).bytes 0 pkt.length := by
    rw [Buf.ofBytes_bytes]
    exact bytes_srvField hpkt _
  rw [srvAddG1Fmt, step_tlvBytes env s hsize hcommand]
  simp only [Command.exec, hlen, addG1Fmt, freshG1Fmt, hbytes]
  cases s.answered.getPdt topic <;> simp

/-! ## The answer to a report -/

/-- The parts of the address do not depend on the length that is given. -/
theorem parseAddressFiled_snd (info : PktInfo) (addrCtrl : UInt8) (addr : ℕ)
    (size size' : UInt64) :
    (parseAddressFiled info addrCtrl addr size).2 =
      (parseAddressFiled info addrCtrl addr size').2 := by
  unfold parseAddressFiled
  simp only
  split
  · rfl
  · split
    · rfl
    · rfl

/-- The lengths of the first part that are in use. -/
theorem h1LenTbl_bounds {type ctrl : ℕ} (hctrl : ctrl < 4)
    (htype : type = 0 ∨ type = 1 ∧ ctrl = 1) :
    4 ≤ h1LenTbl.getD (ctrl + 4 * type) 0 ∧ h1LenTbl.getD (ctrl + 4 * type) 0 ≤ 20 := by
  rcases htype with rfl | ⟨rfl, rfl⟩
  · have hall : ∀ ctrl < 4, 4 ≤ h1LenTbl.getD (ctrl + 4 * 0) 0 ∧
        h1LenTbl.getD (ctrl + 4 * 0) 0 ≤ 20 := by decide
    exact hall ctrl hctrl
  · decide

/-- The length of an address: nothing if it is refused for its control byte. -/
theorem parseAddressFiled_addrLen_cases (addrCtrl : UInt8) (addr : ℕ) (size : UInt64) :
    parseAddressFiled .zero addrCtrl addr size = (0, .zero) ∨
      4 ≤ (parseAddressFiled .zero addrCtrl addr size).2.addrLen ∧
        (parseAddressFiled .zero addrCtrl addr size).2.addrLen ≤ 36 := by
  have hpart : ∀ i < 4, h2LenTbl.getD i 0 ≤ 8 ∧ h3LenTbl.getD i 0 ≤ 8 := by decide
  have h2 := (hpart (addrCtrl.toNat / 4 % 4) (Nat.mod_lt _ (by decide))).1
  have h3 := (hpart (addrCtrl.toNat / 16 % 4) (Nat.mod_lt _ (by decide))).2
  have hctrl : addrCtrl.toNat % 4 < 4 := Nat.mod_lt _ (by decide)
  unfold parseAddressFiled
  simp only
  by_cases htype : 1 < addrCtrl.toNat / 64
  · rw [if_pos htype]
    exact Or.inl rfl
  · rw [if_neg htype]
    by_cases hone : addrCtrl.toNat / 64 = 1 ∧ addrCtrl.toNat % 4 ≠ 1
    · rw [if_pos hone]
      exact Or.inl rfl
    · rw [if_neg hone]
      have hfirst : addrCtrl.toNat / 64 = 0 ∨ addrCtrl.toNat / 64 = 1 ∧ addrCtrl.toNat % 4 = 1 := by
        omega
      have h1 := h1LenTbl_bounds hctrl hfirst
      generalize h1LenTbl.getD _ 0 = a at h1 ⊢
      generalize h2LenTbl.getD _ 0 = b at h2 ⊢
      generalize h3LenTbl.getD _ 0 = c at h3 ⊢
      have hsum : 4 ≤ a + b + c ∧ a + b + c ≤ 36 := by omega
      refine Or.inr ?_
      by_cases hb : b = 0 <;> by_cases hc : c = 0 <;>
        simpa [PktInfo.addrLen, PktInfo.zero, hb, hc] using hsum

/-- The length of an accepted address. -/
theorem parseAddressFiled_addrLen {addrCtrl : UInt8} {addr : ℕ} {size : UInt64}
    (h : (parseAddressFiled .zero addrCtrl addr size).1 ≠ 0) :
    4 ≤ (parseAddressFiled .zero addrCtrl addr size).2.addrLen ∧
      (parseAddressFiled .zero addrCtrl addr size).2.addrLen ≤ 36 := by
  rcases parseAddressFiled_addrLen_cases addrCtrl addr size with hzero | hlen
  · rw [hzero] at h
    exact absurd rfl h
  · exact hlen

/-- The packet is copied behind the first two fields of a report. -/
theorem edgePktBytes_eq (env : Env) (status module len : UInt32) (data : List UInt8) :
    edgePktBytes env status module data len =
      [status, module].flatMap be32Bytes ++
        overwrite ((List.range edgePktSize).map env.uninit ++ be32Bytes len) 0 data := by
  have hwrite := overwrite_append_right ([status, module].flatMap be32Bytes)
    ((List.range edgePktSize).map env.uninit ++ be32Bytes len) 0 data
  rw [← hwrite, edgePktBytes]
  simp only [List.flatMap_cons, List.flatMap_nil, List.append_nil, List.append_assoc]
  rfl

/-- The packet in a report, as the server finds it, as far as it fits. -/
theorem edgePktBytes_mem {env : Env} {status module len : UInt32} {pkt : Buf} {n i : ℕ}
    (hi : i < n) (hfits : i < edgePktSize) :
    (((Buf.ofBytes (edgePktBytes env status module (pkt.bytes 0 n) len)).drop 8).field
      edgePktSize).mem i = pkt.mem i := by
  have hdrop := Buf.ofBytes_append_drop ([status, module].flatMap be32Bytes)
    (overwrite ((List.range edgePktSize).map env.uninit ++ be32Bytes len) 0 (pkt.bytes 0 n))
  rw [edgePktBytes_eq, Buf.field_mem]
  change ((Buf.ofBytes _).drop ([status, module].flatMap be32Bytes).length).mem i = _
  rw [hdrop, Buf.ofBytes_overwrite_mem _ (by simpa using hi)
    (by rw [List.length_append, List.length_map, List.length_range]; omega)]
  have hbytes := Buf.ofBytes_bytes_append_mem pkt hi []
  rwa [List.append_nil] at hbytes

theorem edgePktBytes_module (env : Env) (status module len : UInt32) (data : List UInt8) :
    (Buf.ofBytes (edgePktBytes env status module data len)).be32 4 = module := by
  rw [edgePktBytes_eq]
  have hw : [status, module][1]? = some module := rfl
  exact Buf.be32_flatMap hw _

/-- The packet field of the report on a packet, as the server finds it. -/
def reportField (env : Env) (status module : UInt32) (pkt : Buf) (size : UInt64) : Buf :=
  ((Buf.ofBytes (edgePktBytes env status module (pkt.bytes 0 size.toUInt32.toNat)
    size.toUInt32)).drop 8).field edgePktSize

/-- What the server makes of the address in a packet field. -/
def serverAddress (field : Buf) : PktInfo := (parseAddressFiled .zero (field.mem 1) 2 0).2

/-- The server answers a report with the commands that provide for the product,
the device and the key it finds in the packet field. -/
theorem val_rcvEdgeMsg_pktReport (env : Env) {srv : Server} (honline : srv.status = .online)
    (status module : UInt32) (pkt : Buf) (size : UInt64) :
    let field := reportField env status module pkt size
    (srv.rcvEdgeMsg (Buf.ofBytes (pktReport env status module pkt size.toUInt32))
      (pktReport env status module pkt size.toUInt32).length).val =
        (serverAddress field).h1.map fun h1 =>
          (Server.provisionMsgs (field.le32 h1)
            (field.be32 (h1 + (serverAddress field).addrLen)) module
            (field.bytes h1 (serverAddress field).addrLen), srv) := by
  intro field
  have hmodule := edgePktBytes_module env status module size.toUInt32
    (pkt.bytes 0 size.toUInt32.toNat)
  have hfield : field = ((Buf.ofBytes (edgePktBytes env status module
      (pkt.bytes 0 size.toUInt32.toNat) size.toUInt32)).drop 8).field edgePktSize := rfl
  rw [pktReport]
  generalize edgePktBytes env status module (pkt.bytes 0 size.toUInt32.toNat) size.toUInt32 = body
    at hmodule hfield ⊢
  clear_value field
  have haddress : ∀ len : UInt64, (parseAddressFiled .zero (field.mem 1) 2 len).2 =
      serverAddress field := fun len => parseAddressFiled_snd _ _ _ _ _
  have hsize : ¬ (tlvBytes .pkt body).length < tlvSize := by
    rw [length_tlvBytes]
    omega
  have hanswer : (Server.rcvEdgePkt (Buf.ofBytes body)).val =
      (serverAddress field).h1.map fun h1 =>
        Server.provisionMsgs (field.le32 h1)
          (field.be32 (h1 + (serverAddress field).addrLen)) module
          (field.bytes h1 (serverAddress field).addrLen) := by
    unfold Server.rcvEdgePkt
    simp only [Traced.val_bind, Traced.val_touch, Option.bind_some, ← hfield, hmodule, haddress]
    cases (serverAddress field).h1 with
    | none => rfl
    | some h1 =>
        simp only [Traced.val_bind, Traced.val_touch, Option.bind_some, Traced.val_pure,
          Option.map_some]
  unfold Server.rcvEdgeMsg
  simp only [honline, reduceCtorEq, if_false, hsize, le32_tlvBytes, EdgeProType.ofCode_code,
    tlvBytes_drop, Traced.val_bind, Traced.val_touch, Option.bind_some, hanswer, Traced.val_pure]
  cases (serverAddress field).h1 <;> rfl

/-- The packet field holds the packet, as far as it goes. -/
theorem reportField_mem {env : Env} {status module : UInt32} {pkt : Buf} {size : UInt64} {i : ℕ}
    (hsmall : size.toNat < 2 ^ 32) (hi : i < size.toNat) (hfits : i < edgePktSize) :
    (reportField env status module pkt size).mem i = pkt.mem i := by
  have hlen : size.toUInt32.toNat = size.toNat := by
    rw [UInt64.toNat_toUInt32]
    exact Nat.mod_eq_of_lt hsmall
  exact edgePktBytes_mem (hlen.symm ▸ hi) hfits

/-- What the server finds in the report on a packet that is longer than its
address. -/
theorem reportField_address (env : Env) (status module : UInt32) {pkt : Buf} {size : UInt64}
    (haccepted : (pktAddress pkt size).1 ≠ 0)
    (hcomplete : 2 + (pktAddress pkt size).1 ≤ size.toNat) (hsmall : size.toNat < 2 ^ 32) :
    let field := reportField env status module pkt size
    serverAddress field = (pktAddress pkt size).2 ∧ field.le32 2 = pkt.le32 2 ∧
      field.bytes 2 (pktAddress pkt size).1 = (pkt.drop 2).bytes 0 (pktAddress pkt size).1 ∧
      (HeaderComplete pkt size →
        field.be32 (2 + (pktAddress pkt size).1) = msgKey (pktMsg pkt size)) := by
  intro field
  obtain ⟨hlower, hupper⟩ := parseAddressFiled_addrLen haccepted
  obtain ⟨hl, _⟩ := pktAddress_accepted haccepted
  change 4 ≤ (pktAddress pkt size).2.addrLen at hlower
  change (pktAddress pkt size).2.addrLen ≤ 36 at hupper
  rw [← hl] at hlower hupper
  have hroom : 48 ≤ edgePktSize := by decide
  have hfield : ∀ i < size.toNat, i < 48 → field.mem i = pkt.mem i := fun i hi hi' =>
    reportField_mem hsmall hi (hi'.trans_le hroom)
  refine ⟨?_, Buf.le32_congr fun i hi => hfield _ (by omega) (by omega), ?_, fun hheader => ?_⟩
  · -- the server decodes the address as the edge does, with another length
    rw [serverAddress, hfield 1 (by omega) (by omega)]
    exact parseAddressFiled_snd _ _ _ _ _
  · rw [Buf.bytes_drop]
    exact Buf.bytes_congr fun i hi => hfield _ (by omega) (by omega)
  · have hkey : field.be32 (2 + (pktAddress pkt size).1) =
        pkt.be32 (2 + (pktAddress pkt size).1) :=
      Buf.be32_congr fun i hi => hfield _ (by
        unfold HeaderComplete g1MsgSize at hheader
        omega) (by omega)
    rw [hkey, msgKey, pktMsg, Buf.be32_drop, Nat.add_zero]

/-- The server answers the report on an accepted packet with the commands that
provide for its product, its device and the key of its message. -/
theorem rcvEdgeMsg_pktReport (env : Env) {srv : Server} (honline : srv.status = .online)
    (status module : UInt32) {pkt : Buf} {size : UInt64}
    (haccepted : (pktAddress pkt size).1 ≠ 0)
    (hcomplete : 2 + (pktAddress pkt size).1 ≤ size.toNat) (hsmall : size.toNat < 2 ^ 32) :
    ∃ key, (HeaderComplete pkt size → key = msgKey (pktMsg pkt size)) ∧
      (srv.rcvEdgeMsg (Buf.ofBytes (pktReport env status module pkt size.toUInt32))
        (pktReport env status module pkt size.toUInt32).length).val =
          some (Server.provisionMsgs (pkt.le32 2) key module
            ((pkt.drop 2).bytes 0 (pktAddress pkt size).1), srv) := by
  obtain ⟨hl, _, hh1⟩ := pktAddress_accepted haccepted
  obtain ⟨haddress, htopic, hbytes, hkey⟩ := reportField_address env status module haccepted
    hcomplete hsmall
  have hanswer := val_rcvEdgeMsg_pktReport env honline status module pkt size
  simp only [haddress, hh1, Option.map_some, ← hl, htopic, hbytes] at hanswer
  exact ⟨_, hkey, hanswer⟩

end EceLib
