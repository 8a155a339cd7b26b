import EceLib.Edge.DeviceAttrs
import EceLib.Edge.Reports

/-!
# Numbers in the byte order of the product

`AddProduct` declares the byte order of a product, and the product keeps it.
`num_to_value` does not ask for it: every number is read in network order.
-/

namespace EceLib

open Support

/-! ## The declared byte order -/

/-- `enum edge_pdt_endian`. -/
def edgePdtEndian : ByteOrder → UInt32
  | .big => 1
  | .little => 2

/-- An AddProduct of the run has made this product with this byte order. -/
def AddedWith (env : Env) (mac : List UInt8) (clock : ℕ → ℕ) (es : List Event) (ptr : PdtPtr)
    (endian : UInt32) : Prop :=
  ∃ es₀ e es₁ s₀, es = es₀ ++ e :: es₁ ∧
    run (EdgeState.step env) (EdgeState.init mac clock) es₀ = some s₀ ∧
    e.command? = some (.addProduct ptr.topic endian) ∧ s₀.getPdt ptr.topic = none ∧
    ptr.serial = s₀.nextSerial

namespace EdgeState

/-- The product, while it exists, has this byte order. -/
structure HasEndian (ptr : PdtPtr) (endian : UInt32) (s : EdgeState) : Prop where
  old : ptr.serial < s.nextSerial
  endian : ∀ pdt, s.deref ptr = some pdt → pdt.endian = endian

theorem HasEndian.of_sameConfig {s s' : EdgeState} {ptr : PdtPtr} {endian : UInt32}
    (h : HasEndian ptr endian s) (hconfig : SameConfig s s')
    (hnext : s.ownership.next ≤ s'.ownership.next) : HasEndian ptr endian s' where
  old := Nat.lt_of_lt_of_le h.old hnext
  endian := fun pdt' hderef => by
    obtain ⟨pdt, hpdt, _, hsame⟩ := hconfig.exists_deref hderef
    exact hsame ▸ h.endian pdt hpdt

theorem HasEndian.putPdt {s : EdgeState} {ptr : PdtPtr} {endian : UInt32}
    (h : HasEndian ptr endian s) {topic : UInt32} {pdt pdt' : EdgePdt}
    (g : Registry UInt32 EdgeAttr) (hget : s.gPdtMap.get topic = some pdt)
    (hptr : pdt'.ptr = pdt.ptr) (hsame : pdt'.endian = pdt.endian) :
    HasEndian ptr endian (s.putPdt pdt' g) where
  old := h.old
  endian := fun p hderef => by
    rw [deref_putPdt g hget hptr] at hderef
    split at hderef
    · rename_i hp
      cases hderef
      rw [hsame]
      exact h.endian pdt (hp ▸ deref_ptr hget)
    · exact h.endian p hderef

theorem HasEndian.addPdt {s : EdgeState} {ptr : PdtPtr} {endian : UInt32}
    (h : HasEndian ptr endian s) (topic endian' : UInt32) :
    HasEndian ptr endian (s.addPdt topic endian').2 where
  old := by
    rcases addPdt_cases s topic endian' with ⟨heq, _⟩ | ⟨_, _, _, _, _, _, _, heq⟩
    · exact heq.symm ▸ h.old
    · rw [heq]
      exact Nat.lt_succ_of_lt h.old
  endian := fun pdt hderef => h.endian pdt (deref_of_addPdt h.old hderef)

theorem HasEndian.delPdt {s : EdgeState} {ptr : PdtPtr} {endian : UInt32}
    (h : HasEndian ptr endian s) (topic : UInt32) : HasEndian ptr endian (s.delPdt topic) where
  old := by
    rcases delPdt_cases s topic with ⟨heq, _⟩ | ⟨_, _, heq⟩
    · exact heq.symm ▸ h.old
    · rw [heq]
      exact h.old
  endian := fun pdt hderef => h.endian pdt (deref_of_delPdt hderef)

theorem HasEndian.exec {s s' : EdgeState} {ptr : PdtPtr} {endian : UInt32}
    (h : HasEndian ptr endian s) {c : Command} (hexec : (c.exec s).val = some s') :
    HasEndian ptr endian s' := by
  have hedit : c.EditsProduct → HasEndian ptr endian s' := fun hedits => by
    rcases Command.exec_edit hexec hedits with rfl | ⟨_, pdt, _, _, _, hget, rfl⟩
    · exact h
    · exact h.putPdt _ hget rfl rfl
  cases c with
  | addProduct topic endian' =>
      cases hexec
      exact h.addPdt topic endian'
  | delProduct topic =>
      cases hexec
      exact h.delPdt topic
  | addDevice addr len linkType module topic =>
      exact h.of_sameConfig (sameConfig_addDevice hexec) (steps_command hexec (by simp)).next_le
  | delDevice addr len linkType =>
      exact h.of_sameConfig (sameConfig_delDevice hexec) (steps_command hexec (by simp)).next_le
  | _ => exact hedit trivial

end EdgeState

theorem kept_hasEndian (env : Env) (ptr : PdtPtr) (endian : UInt32) :
    Kept env (EdgeState.HasEndian ptr endian) where
  command := fun h hexec => h.exec hexec
  packet := fun h hpkt => by
    refine h.of_sameConfig (EdgeState.sameConfig_edgeRcvPkt hpkt) ?_
    rw [EdgeState.ownership_edgeRcvPkt hpkt]
  ageing := fun h hage =>
    h.of_sameConfig (EdgeState.sameConfig_doDeviceAgeing hage)
      (EdgeState.steps_doDeviceAgeing hage).next_le
  update := fun {s} h => by
    refine h.of_sameConfig (EdgeState.sameConfig_doDeviceUpdate s) ?_
    rw [EdgeState.ownership_doDeviceUpdate]
  control := fun h hctl => by
    refine h.of_sameConfig hctl.sameConfig ?_
    rw [hctl.ownership]

/-- A product that AddProduct has made has the byte order that was declared. -/
theorem hasEndian_addProduct {env : Env} {s s' : EdgeState} {e : Event} {ptr : PdtPtr}
    {endian : UInt32} (hcommand : e.command? = some (.addProduct ptr.topic endian))
    (hnew : s.getPdt ptr.topic = none) (hserial : ptr.serial = s.nextSerial)
    (hstep : s.step env e = some s') : EdgeState.HasEndian ptr endian s' := by
  -- a message resets the timeout before the command is executed
  have hadd : ∀ stat, s' = (({ s with stat := stat } : EdgeState).addPdt ptr.topic endian).2 →
      EdgeState.HasEndian ptr endian s' := by
    intro stat hs'
    have hnone : s.gPdtMap.containsKey ptr.topic = false := by
      rw [Registry.containsKey_eq, Option.isSome_eq_false_iff, Option.isNone_iff_eq_none]
      exact hnew
    rw [hs']
    unfold EdgeState.addPdt
    simp only [hnone, Bool.false_eq_true, if_false]
    refine ⟨hserial ▸ Nat.lt_succ_self _, fun pdt hderef => ?_⟩
    obtain ⟨hget, _⟩ := EdgeState.deref_eq_some_iff.mp hderef
    cases hget.symm.trans (Registry.get_put_self s.gPdtMap _)
    rfl
  cases e with
  | command c =>
      cases hcommand
      cases hstep
      exact hadd s.stat rfl
  | message msg len =>
      obtain ⟨⟨ret, s₁⟩, hmsg, rfl⟩ := Option.map_eq_some_iff.mp hstep
      rcases EdgeState.mgtRcvMsg_cases hmsg with ⟨hdecode, _⟩ | ⟨c, stat, hdecode, hexec⟩
      · rw [Event.command?, hdecode] at hcommand
        cases hcommand
      · rw [Event.command?, hdecode] at hcommand
        cases hcommand
        cases hexec
        exact hadd stat rfl
  | packet | ageing | update | periodic => cases hcommand

/-- The byte order that AddProduct declares is the one the product has, as long
as it exists. -/
theorem AddedWith.endian_eq {env : Env} {mac : List UInt8} {clock : ℕ → ℕ} {es : List Event}
    {s : EdgeState} {ptr : PdtPtr} {endian : UInt32} {pdt : EdgePdt}
    (h : AddedWith env mac clock es ptr endian)
    (hrun : run (EdgeState.step env) (EdgeState.init mac clock) es = some s)
    (hderef : s.deref ptr = some pdt) : pdt.endian = endian := by
  obtain ⟨es₀, e, es₁, s₀, rfl, hrun₀, hcommand, hnew, hserial⟩ := h
  obtain ⟨s₀', hrun₀', hrest⟩ := run_append_eq_some hrun
  cases hrun₀.symm.trans hrun₀'
  obtain ⟨s₁, hstep, hrun₁⟩ := run_cons_eq_some hrest
  have hendian := hasEndian_addProduct hcommand hnew hserial hstep
  exact ((kept_hasEndian env ptr endian).run hendian hrun₁).endian pdt hderef

/-! ## The text of a number -/

/-- `num_to_value` reads in network order. -/
theorem numToValue_eq {data : List UInt8} (h : data.length = 2 ∨ data.length = 4) :
    numToValue data = ByteOrder.big.value data := by
  rcases h with h | h
  · obtain ⟨b₀, b₁, rfl⟩ := List.length_eq_two.mp h
    simp only [numToValue, ByteOrder.value, List.reverse_cons, List.reverse_nil, List.nil_append,
      List.cons_append, List.map_cons, List.map_nil, Nat.ofDigits_cons, Nat.ofDigits_nil]
    omega
  · obtain ⟨b₀, b₁, b₂, b₃, rfl⟩ := List.length_eq_four.mp h
    simp only [numToValue, ByteOrder.value, List.reverse_cons, List.reverse_nil,
      List.nil_append, List.cons_append, List.map_cons, List.map_nil, Nat.ofDigits_cons,
      Nat.ofDigits_nil]
    omega

/-- A number is read back from its decimal text. -/
theorem ofDigitChars_toString (n : ℕ) : Nat.ofDigitChars 10 (toString n).toList 0 = n := by
  change Nat.ofDigitChars 10 n.repr.toList 0 = n
  rw [Nat.repr_eq_ofList_toDigits, String.toList_ofList]
  exact Nat.ofDigitChars_toDigits (by decide) (by decide)

theorem toString_inj {m n : ℕ} : toString m = toString n ↔ m = n := by
  constructor
  · intro h
    rw [← ofDigitChars_toString m, h, ofDigitChars_toString]
  · exact congrArg toString

theorem toString_ne_empty (n : ℕ) : toString n ≠ "" := by
  intro h
  have hpos : 0 < n.repr.length := Nat.length_repr_pos
  rw [show n.repr = "" from h] at hpos
  exact absurd hpos (by decide)

/-! ## The widths of a number -/

/-- The widths `num_to_value` decodes. -/
def numberWidths : List ℕ := [1, 2, 4]

theorem numToValue_of_width {data : List UInt8} (h : data.length ∈ numberWidths) :
    numToValue data = ByteOrder.big.value data := by
  by_cases hone : data.length = 1
  · obtain ⟨b, rfl⟩ := List.length_eq_one_iff.mp hone
    simp [numToValue, ByteOrder.value]
  · exact numToValue_eq (by simpa [numberWidths, hone] using h)

theorem numToValue_of_not_width {data : List UInt8} (h : data.length ∉ numberWidths) :
    numToValue data = 0 := by
  unfold numToValue
  split
  all_goals simp [numberWidths] at h ⊢

/-- `num_to_value` by the width of the number. -/
theorem numToValue_eq_ite (data : List UInt8) :
    numToValue data = if data.length ∈ numberWidths then ByteOrder.big.value data else 0 := by
  split
  · next h => exact numToValue_of_width h
  · next h => exact numToValue_of_not_width h

theorem numToString_inj {data data' : List UInt8} :
    numToString data = numToString data' ↔ numToValue data = numToValue data' :=
  toString_inj

/-- The bytes are decoded as the number they stand for in network order, and no
others of the width are reported as that number. -/
structure NumberDecoded (data : List UInt8) : Prop where
  value : numToValue data = ByteOrder.big.value data
  text : numToString data = toString (ByteOrder.big.value data)
  distinct : ∀ data', data'.length = data.length → data' ≠ data →
    numToString data' ≠ numToString data

/-- Two values of a width that is not decoded. -/
theorem exists_same_length_ne {data : List UInt8} (h : 0 < data.length) :
    ∃ data' : List UInt8, data'.length = data.length ∧ data' ≠ data := by
  cases data with
  | nil => simp at h
  | cons b bs =>
      refine ⟨(b + 1) :: bs, rfl, fun heq => ?_⟩
      have hb : b + 1 = b := (List.cons.inj heq).1
      simp at hb

/-- A number is decoded exactly if it has one, two or four bytes. -/
theorem numberDecoded_iff {data : List UInt8} (hlen : 0 < data.length) :
    NumberDecoded data ↔ data.length ∈ numberWidths := by
  constructor
  · intro h
    by_contra hwidth
    obtain ⟨data', hlen', hne⟩ := exists_same_length_ne hlen
    have hvalue' : numToValue data' = 0 := numToValue_of_not_width (hlen' ▸ hwidth)
    apply h.distinct data' hlen' hne
    rw [numToString_inj, hvalue', numToValue_of_not_width hwidth]
  · intro h
    have hvalue := numToValue_of_width h
    refine ⟨hvalue, congrArg toString hvalue, fun data' hlen' hne htext => hne ?_⟩
    have hvalue' : numToValue data' = ByteOrder.big.value data' :=
      numToValue_of_width (hlen' ▸ h)
    rw [numToString_inj, hvalue', hvalue] at htext
    exact ByteOrder.value_big_inj hlen' htext

theorem numberDecoded_of_four : 0 < 4 ∧
    (NumberDecoded [1, 2, 3, 4] ↔ [1, 2, 3, 4].length ∈ numberWidths) :=
  ⟨by decide, numberDecoded_iff (by decide)⟩

/-- A number of eight bytes is reported as 0. -/
theorem numberDecoded_fails_of_eight :
    ¬ ∀ data : List UInt8, 1 ≤ data.length → data.length ≤ 8 → NumberDecoded data := by
  intro h
  have hvalue := (h [0, 0, 0, 0, 0, 0, 0, 1] (by decide) (by decide)).value
  exact absurd hvalue (by decide)

/-! ## A number of a device -/

/-- The bytes that the tokens extract for a topic, in the order of the format. -/
def tokenData (payload : Buf) (tokens : List G1Token) (topic : UInt32) : List (List UInt8) :=
  (tokens.filter fun token => topic = token.topic).map fun token =>
    payload.bytes token.offset token.len

theorem tokenData_cons_of_eq (payload : Buf) {token : G1Token} (next : List G1Token)
    {topic : UInt32} (h : token.topic = topic) :
    tokenData payload (token :: next) topic =
      payload.bytes token.offset token.len :: tokenData payload next topic := by
  simp [tokenData, h.symm]

theorem tokenData_cons_of_ne (payload : Buf) {token : G1Token} (next : List G1Token)
    {topic : UInt32} (h : token.topic ≠ topic) :
    tokenData payload (token :: next) topic = tokenData payload next topic := by
  simp [tokenData, Ne.symm h]

theorem mem_tokenData (payload : Buf) {tokens : List G1Token} {token : G1Token}
    (h : token ∈ tokens) :
    payload.bytes token.offset token.len ∈ tokenData payload tokens token.topic :=
  List.mem_map.mpr ⟨token, List.mem_filter.mpr ⟨h, by simp⟩, rfl⟩

/-- There is one token for the topic. -/
theorem tokenData_of_topicCount_eq_one (payload : Buf) {tokens : List G1Token} {token : G1Token}
    (hmem : token ∈ tokens) (hcount : topicCount tokens token.topic = 1) :
    tokenData payload tokens token.topic = [payload.bytes token.offset token.len] := by
  rw [topicCount, List.countP_eq_length_filter] at hcount
  obtain ⟨only, honly⟩ := List.length_eq_one_iff.mp hcount
  have hfilter : token ∈ tokens.filter fun other => token.topic = other.topic :=
    List.mem_filter.mpr ⟨hmem, by simp⟩
  rw [honly, List.mem_singleton] at hfilter
  rw [tokenData, honly, hfilter, List.map_singleton]

/-- What the token loop does to a value: one update for each of its tokens. -/
theorem vals_tokenLoop {payload : Buf} {payloadLen : ℕ} {tokens : List G1Token}
    {s s' : EdgeState} {dev dev' : Dev} {topic : UInt32} (htopic : topic ≠ 0)
    (h : (tokenLoop payload payloadLen tokens s dev).val = some (s', dev')) :
    dev'.vals topic = (tokenData payload tokens topic).foldl
      (Block.update (AttrMem.set (attrType s.gAttrMap topic))) (dev.vals topic) := by
  induction tokens generalizing s dev with
  | nil =>
      cases h
      rfl
  | cons token next ih =>
      rcases tokenLoop_cons_cases h with ⟨hnot, hnext⟩ | ⟨v, u, k, out, _, _, _, hu, _, hnext⟩
      · rw [ih hnext]
        by_cases hsame : token.topic = topic
        · -- a token without bytes writes nothing
          have hnil : payload.bytes token.offset token.len = [] := by
            rcases hnot with hzero | hzero
            · exact absurd (hsame.symm.trans hzero) htopic
            · exact List.length_eq_zero_iff.mp ((Buf.length_bytes _ _ _).trans hzero)
          rw [tokenData_cons_of_eq payload next hsame, List.foldl_cons, hnil,
            Block.update_of_front_eq rfl]
        · rw [tokenData_cons_of_ne payload next hsame]
      · have hvals : Dev.vals { dev with
            ts := s.now, updateTs := u, attrMap := dev.attrMap.put v } =
              storeVal s.gAttrMap dev.vals token.topic (payload.bytes token.offset token.len) :=
          hu.vals_eq rfl
        rw [ih hnext, hvals, storeVal]
        by_cases hsame : token.topic = topic
        · rw [tokenData_cons_of_eq payload next hsame, List.foldl_cons]
          subst hsame
          rw [Function.update_self]
          rfl
        · rw [tokenData_cons_of_ne payload next hsame,
            Function.update_of_ne (fun heq => hsame heq.symm)]
          rfl

/-- Fresh memory is filled with `0xFF` up to `str`. -/
theorem AttrMem.front_blank {k : ℕ} (h : k ≤ maxDeviceAttributeLen) :
    AttrMem.blank.front k = List.replicate k 0xFF := by
  have hlen : k ≤ (List.replicate maxDeviceAttributeLen (0xFF : UInt8)).length := by
    rwa [List.length_replicate]
  change (List.replicate maxDeviceAttributeLen (0xFF : UInt8) ++ _).take k = _
  rw [List.take_append_of_le_length hlen, List.take_replicate, Nat.min_eq_left h]

/-! ## What is stored and reported -/

/-- The bytes of a token in the payload of a packet. -/
def tokenBytes (pkt : Buf) (size : UInt64) (token : G1Token) : List UInt8 :=
  (pktPayload pkt size).bytes token.offset token.len

namespace EdgeState

/-- The value a device has for a topic. -/
def stored (s : EdgeState) (oid : Oid) (topic : UInt32) : Option AttrVal :=
  (s.gDevMap.get oid).bind fun dev => dev.attrMap.get topic

/-- The device has a value with this text, and the next pass that reports the
device reports it. -/
def StoresText (s : EdgeState) (oid : Oid) (topic : UInt32) (text : String) : Prop :=
  ∃ attr, s.stored oid topic = some attr ∧ attr.str = text ∧
    ∀ dev, s.gDevMap.get oid = some dev → dev.updateTs > dev.reportTs →
      PassTaken s s.doDeviceUpdate → lastReport oid topic s.doDeviceUpdate.out = some attr

theorem storesText_iff {s : EdgeState} {oid : Oid} {topic : UInt32} {text : String} :
    s.StoresText oid topic text ↔ ∃ attr, s.stored oid topic = some attr ∧ attr.str = text := by
  constructor
  · rintro ⟨attr, hstored, htext, _⟩
    exact ⟨attr, hstored, htext⟩
  · rintro ⟨attr, hstored, htext⟩
    refine ⟨attr, hstored, htext, fun dev hdev hupdated htaken => ?_⟩
    have hattr : dev.attrMap.get topic = some attr := by
      simpa only [stored, hdev, Option.bind_some] using hstored
    rcases doDeviceUpdate_cases s with ⟨last, hlast, heq⟩ | ⟨_, out, _, _, heq, _, hpass, _⟩
    · -- no pass
      have hsame : s.doDeviceUpdate.updateLastSec = last := by rw [heq]
      rcases hlast with hfirst | hlast
      · exact absurd hfirst htaken.1
      · exact absurd (hsame.trans hlast) htaken.2
    · rw [heq]
      exact hpass oid dev topic attr hdev hupdated hattr

/-- A packet is delivered to a format of the device's product, with a number of
two or four bytes in the payload that are not the bytes stored. -/
structure NumberRead (s : EdgeState) (type : UInt32) (pkt : Buf) (size : UInt64) (dev : Dev)
    (pdt : EdgePdt) (fmt : G1Fmt) (token : G1Token) : Prop where
  delivered : s.Delivered type pkt size fmt
  device : s.gDevMap.get (pktOid type pkt size) = some dev
  product : s.deref dev.pdt = some pdt
  extracted : token ∈ fmt.token
  number : ∃ attr, s.getAttr token.topic = some attr ∧ attr.type = .num
  width : token.len = 2 ∨ token.len = 4
  within : token.offset + token.len ≤ payloadSize pkt size
  changed : ∀ old, dev.attrMap.get token.topic = some old →
    old.mem.front token.len ≠ tokenBytes pkt size token

variable {s s' : EdgeState} {type : UInt32} {module : UInt64} {pkt : Buf} {size : UInt64}
  {dev : Dev} {pdt : EdgePdt} {fmt : G1Fmt} {token : G1Token} {env : Env} {ret : ℕ}

/-- The text that the device stores afterwards: that of the last value whose bytes
were not there, if there is one, and else what it was. -/
theorem NumberRead.exists_stored (hread : s.NumberRead type pkt size dev pdt fmt token)
    (htopic : token.topic ≠ 0)
    (hrcv : (s.edgeRcvPkt env type module pkt size).val = some (ret, s')) :
    ∃ attr, s'.stored (pktOid type pkt size) token.topic = some attr ∧
      attr.str = (((dev.vals token.topic).lastChange (AttrMem.set (some .num))
        (tokenData (pktPayload pkt size) fmt.token token.topic)).map numToString).getD
        (dev.attrBefore token.topic).str := by
  obtain ⟨ea, hea, hnum⟩ := hread.number
  obtain ⟨dev', ts, s₁, s₂, dev₂, hdev, hattr, hloop, hget⟩ := hread.delivered.edgeRcvPkt hrcv
  obtain rfl := Option.some.inj (hread.device.symm.trans hdev)
  have hlen : token.len ≠ 0 := by
    have hwidth := hread.width
    omega
  have hholds : dev₂.Holds token.topic :=
    (tokenLoop_holds_iff hloop _).mpr (Or.inr ⟨token, hread.extracted, rfl, htopic, hlen⟩)
  obtain ⟨attr, hvalue⟩ := Option.isSome_iff_exists.mp hholds
  refine ⟨attr, ?_, ?_⟩
  · rw [stored, hget, if_pos rfl, Option.bind_some, hvalue]
  · have hafter : dev₂.attrBefore token.topic = attr := by simp [Dev.attrBefore, hvalue]
    have htype : attrType s₁.gAttrMap token.topic = some .num := by
      rw [attrType, hattr]
      exact hnum ▸ congrArg (Option.map EdgeAttr.type) hea
    have hvals := vals_tokenLoop htopic hloop
    rw [htype, Dev.vals, hafter] at hvals
    have hkey : attr.topic = token.topic := Registry.key_of_get hvalue
    -- the text of a memory under the topic of the token
    let text : AttrMem → String := fun mem =>
      ({ len := 0, mem := mem, topic := token.topic } : AttrVal).str
    have hrender : ∀ mem data, text (AttrMem.set (some .num) mem data) = numToString data :=
      fun _ _ => AttrVal.str_of_set rfl
    have htext : ∀ v : AttrVal, v.topic = token.topic → v.str = text v.mem := fun v hv => by
      simp only [text, AttrVal.str, hv]
    rw [htext attr hkey, htext _ (dev.attrBefore_topic _), hvals]
    exact Block.text_foldl_update hrender _ _

/-- Where no bytes change, this is the first value, and there is no text. -/
theorem NumberRead.str_eq_empty (hread : s.NumberRead type pkt size dev pdt fmt token)
    (hlast : (dev.vals token.topic).lastChange (AttrMem.set (some .num))
      (tokenData (pktPayload pkt size) fmt.token token.topic) = none) :
    (dev.attrBefore token.topic).str = "" := by
  have hsame := Block.lastChange_eq_none_iff.mp hlast _
    (mem_tokenData (pktPayload pkt size) hread.extracted)
  rw [Buf.length_bytes, Dev.vals] at hsame
  cases hold : dev.attrMap.get token.topic with
  | none =>
      simp only [Dev.attrBefore, hold, Option.getD_none]
      rfl
  | some old =>
      have hbefore : dev.attrBefore token.topic = old := by simp [Dev.attrBefore, hold]
      rw [hbefore] at hsame
      exact absurd hsame (hread.changed old hold)

/-- The text is the one of the last token for the topic whose bytes were not
there, read in network order. -/
theorem NumberRead.storesText_iff (hread : s.NumberRead type pkt size dev pdt fmt token)
    (htopic : token.topic ≠ 0)
    (hrcv : (s.edgeRcvPkt env type module pkt size).val = some (ret, s')) (n : ℕ) :
    s'.StoresText (pktOid type pkt size) token.topic (toString n) ↔
      ∃ data, (dev.vals token.topic).lastChange (AttrMem.set (some .num))
          (tokenData (pktPayload pkt size) fmt.token token.topic) = some data ∧
        numToValue data = n := by
  obtain ⟨attr, hstored, htext⟩ := hread.exists_stored htopic hrcv
  rw [EdgeState.storesText_iff, hstored]
  simp only [Option.some.injEq, exists_eq_left']
  rw [htext]
  cases hlast : (dev.vals token.topic).lastChange (AttrMem.set (some .num))
      (tokenData (pktPayload pkt size) fmt.token token.topic) with
  | some data =>
      simp only [Option.map_some, Option.getD_some, Option.some.injEq, exists_eq_left']
      exact toString_inj
  | none =>
      refine iff_of_false (fun hempty => ?_) (by simp)
      rw [Option.map_none, Option.getD_none, hread.str_eq_empty hlast] at hempty
      exact toString_ne_empty n hempty.symm

/-- Where one token extracts the topic, its bytes decide: they have to read the
same in both orders, if the declared one is not network order, and a first value
must not consist of bytes `0xFF`. -/
theorem NumberRead.exists_lastChange_iff (hread : s.NumberRead type pkt size dev pdt fmt token)
    (hcount : topicCount fmt.token token.topic = 1) (order : ByteOrder) :
    (∃ data, (dev.vals token.topic).lastChange (AttrMem.set (some .num))
          (tokenData (pktPayload pkt size) fmt.token token.topic) = some data ∧
        numToValue data = order.value (tokenBytes pkt size token)) ↔
      (order = .big ∨ (tokenBytes pkt size token).reverse = tokenBytes pkt size token) ∧
        (dev.attrMap.get token.topic = none →
          tokenBytes pkt size token ≠ List.replicate token.len 0xFF) := by
  have hlen : (tokenBytes pkt size token).length = token.len := Buf.length_bytes _ _ _
  have hwidth := hread.width
  have hvalue : numToValue (tokenBytes pkt size token) =
      ByteOrder.big.value (tokenBytes pkt size token) := numToValue_eq (by rw [hlen]; exact hwidth)
  have hnew : (dev.vals token.topic).front token.len ≠ tokenBytes pkt size token ↔
      (dev.attrMap.get token.topic = none →
        tokenBytes pkt size token ≠ List.replicate token.len 0xFF) := by
    cases hold : dev.attrMap.get token.topic with
    | none =>
        have hbefore : (dev.vals token.topic).front token.len =
            List.replicate token.len 0xFF := by
          simp only [Dev.vals, Dev.attrBefore, hold, Option.getD_none]
          apply AttrMem.front_blank
          simp only [maxDeviceAttributeLen]
          omega
        rw [hbefore]
        simp [eq_comm]
    | some old =>
        have hbefore : dev.vals token.topic = old.mem := by simp [Dev.vals, Dev.attrBefore, hold]
        rw [hbefore]
        exact iff_of_true (hread.changed old hold) (by simp)
  rw [tokenData_of_topicCount_eq_one _ hread.extracted hcount, Block.lastChange_singleton,
    ← ByteOrder.value_big_eq_iff, ← hvalue, ← hnew, Buf.length_bytes]
  change (∃ data, (if (dev.vals token.topic).front token.len =
    tokenBytes pkt size token then none else some (tokenBytes pkt size token)) = some data ∧ _) ↔ _
  by_cases hsame : (dev.vals token.topic).front token.len = tokenBytes pkt size token
  · simp [hsame]
  · simp [hsame]

end EdgeState

/-- In every run, for a product that was added with a byte order and a number
that a packet changes: the product has the order that was declared, and the text
stored is that of the bytes read in this order exactly if the last token for the
attribute whose bytes were not there gives the same number: one of 1, 2 or 4
bytes in network order, one of any other width as 0.
Where no other token of the format extracts the attribute, that is to say that
the order does not matter and a first value is not all `0xFF`. -/
theorem storesNumber_iff (env : Env) (mac : List UInt8) (clock : ℕ → ℕ) {es : List Event}
    {s s' : EdgeState}
    (hrun : run (EdgeState.step env) (EdgeState.init mac clock) es = some s)
    {type : UInt32} {module : UInt64} {pkt : Buf} {size : UInt64} {dev : Dev} {pdt : EdgePdt}
    {fmt : G1Fmt} {token : G1Token} {order : ByteOrder} {ret : ℕ}
    (hread : s.NumberRead type pkt size dev pdt fmt token)
    (hadded : AddedWith env mac clock es dev.pdt (edgePdtEndian order))
    (hrcv : (s.edgeRcvPkt env type module pkt size).val = some (ret, s')) :
    pdt.endian = edgePdtEndian order ∧
    (s'.StoresText (pktOid type pkt size) token.topic
        (toString (order.value (tokenBytes pkt size token))) ↔
      ∃ data, (dev.vals token.topic).lastChange (AttrMem.set (some .num))
          (tokenData (pktPayload pkt size) fmt.token token.topic) = some data ∧
        (if data.length ∈ numberWidths then ByteOrder.big.value data else 0) =
          order.value (tokenBytes pkt size token)) ∧
    (topicCount fmt.token token.topic = 1 →
      (s'.StoresText (pktOid type pkt size) token.topic
          (toString (order.value (tokenBytes pkt size token))) ↔
        (order = .big ∨ (tokenBytes pkt size token).reverse = tokenBytes pkt size token) ∧
          (dev.attrMap.get token.topic = none →
            tokenBytes pkt size token ≠ List.replicate token.len 0xFF))) := by
  have hheld : s.AttrsHeld := (kept_attrsHeld env).run (attrsHeld_init mac clock) hrun
  obtain ⟨ea, hea, _⟩ := hread.number
  have htopic : token.topic ≠ 0 := (hheld.1 token.topic ea hea).1
  have hiff := hread.storesText_iff htopic hrcv (order.value (tokenBytes pkt size token))
  refine ⟨hadded.endian_eq hrun hread.product, ?_, fun hcount => ?_⟩
  · simpa only [numToValue_eq_ite] using hiff
  · rw [hiff, hread.exists_lastChange_iff hcount]

/-- A product of this byte order, with a device, and a format with a number of
two bytes. -/
def orderRun (order : ByteOrder) : List Event :=
  [.command (.addProduct 5 (edgePdtEndian order)),
    .command (.addDevice (Buf.ofBytes (List.replicate mgtAddrSize 1)) 6 0 0 5),
    .command (.addPacketFormat (Buf.ofBytes (List.replicate mgtPktSize 0)) 10 5 7 10 0 10),
    .command (.addFormatToken 5 7 1 0 0 2)]

def orderToken : G1Token := ⟨1, 0, 2⟩

def orderFmt : G1Fmt := { shortPayloadFmt with token := [orderToken] }

/-- A packet of the device with the bytes `01 02`. -/
def orderPkt : List UInt8 := [0, 0, 1, 1, 1, 1, 1, 1, 0, 0, 0, 7, 0, 2, 1, 2]

theorem numberRead_orderRun (order : ByteOrder) :
    ∃ s s' dev pdt ret,
      run (EdgeState.step Env.plain) (EdgeState.init [] fun _ => 0) (orderRun order) = some s ∧
      s.NumberRead 0 (Buf.ofBytes orderPkt) 16 dev pdt orderFmt orderToken ∧
      dev.attrMap.get 1 = none ∧
      AddedWith Env.plain [] (fun _ => 0) (orderRun order) dev.pdt (edgePdtEndian order) ∧
      (s.edgeRcvPkt Env.plain 0 0 (Buf.ofBytes orderPkt) 16).val = some (ret, s') := by
  have heval : (run (EdgeState.step Env.plain) (EdgeState.init [] fun _ => 0)
      (orderRun order)).map (fun s =>
        (decide (s.Delivered 0 (Buf.ofBytes orderPkt) 16 orderFmt),
          (s.gDevMap.get (pktOid 0 (Buf.ofBytes orderPkt) 16)).any (fun dev =>
            (s.deref dev.pdt).isSome && decide (dev.pdt = ⟨5, 0⟩) && (dev.attrMap.get 1).isNone),
          (s.getAttr 1).any (fun attr => decide (attr.type = .num)),
          (s.edgeRcvPkt Env.plain 0 0 (Buf.ofBytes orderPkt) 16).val.isSome)) =
        some (true, true, true, true) := by
    cases order <;> decide +kernel
  obtain ⟨s, hrun, heq⟩ := Option.map_eq_some_iff.mp heval
  simp only [Prod.mk.injEq, Option.any_eq_true, Bool.and_eq_true, decide_eq_true_eq] at heq
  obtain ⟨hdelivered, ⟨dev, hdev, ⟨hpdt, hptr⟩, hnone⟩, hnum, hrcv⟩ := heq
  obtain ⟨pdt, hderef⟩ := Option.isSome_iff_exists.mp hpdt
  obtain ⟨⟨ret, s'⟩, hret⟩ := Option.isSome_iff_exists.mp hrcv
  have hfirst : dev.attrMap.get 1 = none := Option.isNone_iff_eq_none.mp hnone
  refine ⟨s, s', dev, pdt, ret, hrun, ?_, hfirst, ?_, hret⟩
  · refine ⟨hdelivered, hdev, hderef, by simp [orderFmt], hnum, Or.inl rfl, by decide +kernel, ?_⟩
    intro old hold
    cases hfirst.symm.trans hold
  · rw [hptr]
    exact ⟨[], _, _, _, rfl, rfl, rfl, rfl, rfl⟩

theorem storesNumber_big :
    ∃ s' : EdgeState, s'.StoresText (pktOid 0 (Buf.ofBytes orderPkt) 16) 1
      (toString (ByteOrder.big.value [1, 2])) := by
  obtain ⟨s, s', dev, pdt, ret, hrun, hread, hnone, hadded, hrcv⟩ := numberRead_orderRun .big
  have hbytes : tokenBytes (Buf.ofBytes orderPkt) 16 orderToken = [1, 2] := by decide +kernel
  obtain ⟨_, _, honly⟩ := storesNumber_iff Env.plain [] (fun _ => 0) hrun hread hadded hrcv
  rw [hbytes] at honly
  exact ⟨s', (honly rfl).mpr ⟨Or.inl rfl, fun _ => by decide⟩⟩

/-- A product that declares the other byte order has its numbers stored as if it
had declared this one. -/
theorem storesNumber_fails_of_little :
    ¬ ∀ (env : Env) (mac : List UInt8) (clock : ℕ → ℕ) (es : List Event) (s s' : EdgeState)
      (type : UInt32) (module : UInt64) (pkt : Buf) (size : UInt64) (dev : Dev) (pdt : EdgePdt)
      (fmt : G1Fmt) (token : G1Token) (order : ByteOrder) (ret : ℕ),
      run (EdgeState.step env) (EdgeState.init mac clock) es = some s →
      s.NumberRead type pkt size dev pdt fmt token →
      AddedWith env mac clock es dev.pdt (edgePdtEndian order) →
      (s.edgeRcvPkt env type module pkt size).val = some (ret, s') →
        s'.StoresText (pktOid type pkt size) token.topic
          (toString (order.value (tokenBytes pkt size token))) := by
  intro h
  obtain ⟨s, s', dev, pdt, ret, hrun, hread, _, hadded, hrcv⟩ := numberRead_orderRun .little
  have hstores := h _ _ _ _ _ _ _ _ _ _ _ _ _ _ .little _ hrun hread hadded hrcv
  rw [hread.storesText_iff (by decide) hrcv, hread.exists_lastChange_iff rfl] at hstores
  have hbytes : tokenBytes (Buf.ofBytes orderPkt) 16 orderToken = [1, 2] := by decide +kernel
  rw [hbytes] at hstores
  rcases hstores.1 with horder | hreverse
  · cases horder
  · exact absurd hreverse (by decide)

end EceLib
