import EceLib.Edge.ValueStore

/-!
# Rendering of values

`add_dev_attr` and `upt_dev_attr` print a changed value with the `to_string`
entry for the type that its attribute is registered with.  There is no entry for
strings, so that a packet must not change the value of a topic that is
registered as a string.
-/

namespace EceLib

open Support

/-! ## The entries that are called -/

/-- The type whose `to_string` entry `upt_dev_attr` calls, if it calls one: the
arguments are accepted, the value is new, and the attribute is registered.  A
value that is longer than `val` and `str` is new. -/
def EdgeState.toStringType (s : EdgeState) (dev : Dev) (topic : UInt32) (data : List UInt8) :
    Option EdgeAttrType :=
  if topic = 0 ∨ data.length = 0 then none
  else
    let mem :=
      match dev.attrMap.get topic with
      | none => AttrMem.blank
      | some attr => attr.mem
    if mem.front data.length ≠ data then (s.getAttr topic).map EdgeAttr.type else none

/-- The types of the entries that the token loop calls, in its order. -/
def renders (payload : Buf) (payloadLen : ℕ) :
    List G1Token → EdgeState → Dev → List EdgeAttrType
  | [], _, _ => []
  | token :: next, s, dev =>
      (s.toStringType dev token.topic (payload.bytes token.offset token.len)).toList ++
        ((tokenLoop payload payloadLen [token] s dev).val.elim [] fun r =>
          renders payload payloadLen next r.1 r.2)

theorem EdgeState.toStringType_eq {s : EdgeState} {dev : Dev} {topic : UInt32}
    {data : List UInt8} (htopic : topic ≠ 0) (hdata : data.length ≠ 0) :
    s.toStringType dev topic data =
      if (dev.vals topic).front data.length ≠ data then attrType s.gAttrMap topic else none := by
  have hargs : ¬ (topic = 0 ∨ data.length = 0) := not_or.mpr ⟨htopic, hdata⟩
  unfold toStringType
  rw [if_neg hargs, Dev.vals, Dev.attrBefore]
  cases dev.attrMap.get topic <;> rfl

/-- `upt_dev_attr` stores a value exactly if it ends inside `str` and the entry
that is called is there. -/
theorem EdgeState.valueStorable_iff_toStringType (s : EdgeState) (dev : Dev) {topic : UInt32}
    {data : List UInt8} (htopic : topic ≠ 0) (hdata : data.length ≠ 0) :
    ValueStorable s.gAttrMap topic (dev.vals topic) data ↔ data.length ≤ attrMemSize ∧
      ∀ ty, s.toStringType dev topic data = some ty → (toStringOperation ty).isSome := by
  rw [toStringType_eq htopic hdata, ValueStorable]
  refine and_congr_right fun _ => ?_
  by_cases hval : (dev.vals topic).front data.length = data
  · simp [hval]
  · simp [hval, attrType]

/-! ## The token loop -/

/-- The loop over one token. -/
theorem tokenLoop_single (payload : Buf) (payloadLen : ℕ) {token : G1Token} (s : EdgeState)
    (dev : Dev) (htopic : token.topic ≠ 0) (hlen : token.len ≠ 0) :
    ((tokenLoop payload payloadLen [token] s dev).val.isSome ↔
      ValueStorable s.gAttrMap token.topic (dev.vals token.topic)
        (payload.bytes token.offset token.len)) ∧
    ∀ r, (tokenLoop payload payloadLen [token] s dev).val = some r →
      r.1.gAttrMap = s.gAttrMap ∧
        r.2.vals = storeVal s.gAttrMap dev.vals token.topic
          (payload.bytes token.offset token.len) := by
  constructor
  · rw [isSome_tokenLoop, TokensStorable, if_neg (not_or.mpr ⟨htopic, hlen⟩)]
    simp only [TokensStorable, and_true]
  · intro r hr
    rcases tokenLoop_cons_cases hr with
      ⟨hrefused, _⟩ | ⟨v, u, k, out, _, _, _, hu, _, hnext⟩
    · exact absurd hrefused (not_or.mpr ⟨htopic, hlen⟩)
    · cases hnext
      exact ⟨rfl, hu.vals_eq rfl⟩

/-- All entries that the loop calls are there, and no value is too long for `val`
and `str`, exactly if all values can be stored. -/
theorem forall_renders_iff {payload : Buf} (payloadLen : ℕ) {tokens : List G1Token}
    (hvalid : ∀ token ∈ tokens, token.topic ≠ 0 ∧ token.len ≠ 0) (s : EdgeState) (dev : Dev) :
    ((∀ ty ∈ renders payload payloadLen tokens s dev, (toStringOperation ty).isSome) ∧
        TokensWithin attrMemSize s.gAttrMap payload tokens dev.vals) ↔
      TokensStorable s.gAttrMap payload tokens dev.vals := by
  induction tokens generalizing s dev with
  | nil => simp [renders, TokensWithin, TokensStorable]
  | cons token next ih =>
      obtain ⟨htopic, hlen⟩ := hvalid token (by simp)
      have hnext : ∀ t ∈ next, t.topic ≠ 0 ∧ t.len ≠ 0 := fun t ht => hvalid t (by simp [ht])
      obtain ⟨hstored, hafter⟩ := tokenLoop_single payload payloadLen s dev htopic hlen
      have hbytes := Buf.length_bytes payload token.offset token.len
      have hne : (payload.bytes token.offset token.len).length ≠ 0 := by rwa [hbytes]
      have hhead := EdgeState.valueStorable_iff_toStringType s dev htopic hne
      have hargs : ¬ (token.topic = 0 ∨ token.len = 0) := not_or.mpr ⟨htopic, hlen⟩
      simp only [renders, List.mem_append, or_imp, forall_and, Option.mem_toList, TokensWithin,
        TokensStorable, if_neg hargs]
      by_cases hstorable : ValueStorable s.gAttrMap token.topic (dev.vals token.topic)
          (payload.bytes token.offset token.len)
      · obtain ⟨hfits, hentry⟩ := hhead.mp hstorable
        obtain ⟨r, hr⟩ := Option.isSome_iff_exists.mp (hstored.mpr hstorable)
        obtain ⟨hattrs, hvals⟩ := hafter r hr
        have hrest := ih hnext r.1 r.2
        rw [hattrs, hvals] at hrest
        rw [hr, Option.elim_some, and_iff_right hstorable, ← hrest]
        constructor
        · rintro ⟨⟨_, hall⟩, _, hwithin⟩
          exact ⟨hall, hwithin hstorable⟩
        · rintro ⟨hall, hwithin⟩
          exact ⟨⟨hentry, hall⟩, hbytes.ge.trans hfits, fun _ => hwithin⟩
      · refine iff_of_false (fun h => hstorable (hhead.mpr ?_)) fun h => hstorable h.1
        exact ⟨hbytes.le.trans h.2.1, h.1.1⟩

/-! ## Strings -/

/-- Each token of a topic that is registered as a string has the bytes that are
stored. -/
def StringsUnchanged (g : Registry UInt32 EdgeAttr) (payload : Buf) (tokens : List G1Token)
    (vals : UInt32 → AttrMem) : Prop :=
  ∀ token ∈ tokens, attrType g token.topic = some .str →
    (vals token.topic).front token.len = payload.bytes token.offset token.len

theorem isSome_toStringOperation_iff {ty : EdgeAttrType} :
    (toStringOperation ty).isSome ↔ ty ≠ .str := by
  cases ty <;> simp [toStringOperation]

/-- Strings are the values that cannot be stored. -/
theorem valueStorable_iff {g : Registry UInt32 EdgeAttr} {topic : UInt32} {mem : AttrMem}
    {data : List UInt8} :
    ValueStorable g topic mem data ↔ data.length ≤ attrMemSize ∧
      (attrType g topic = some .str → mem.front data.length = data) := by
  rw [ValueStorable, attrType]
  simp only [isSome_toStringOperation_iff, Option.map_eq_some_iff]
  refine and_congr_right fun _ => ⟨?_, ?_⟩
  · rintro h ⟨attr, hattr, htype⟩
    by_contra hval
    exact h hval attr hattr htype
  · intro h hval attr hattr htype
    exact hval (h ⟨attr, hattr, htype⟩)

/-- A token whose value can be stored changes no string. -/
theorem stringsUnchanged_storeVal {g : Registry UInt32 EdgeAttr} {payload : Buf}
    {tokens : List G1Token} {vals : UInt32 → AttrMem} {topic : UInt32} {data : List UInt8}
    (hsame : attrType g topic = some .str → (vals topic).front data.length = data) :
    StringsUnchanged g payload tokens (storeVal g vals topic data) ↔
      StringsUnchanged g payload tokens vals := by
  refine forall₂_congr fun token _ => imp_congr_right fun hstr => ?_
  unfold storeVal
  by_cases htopic : token.topic = topic
  · subst htopic
    rw [Function.update_self, Block.update_of_front_eq (hsame hstr)]
  · rw [Function.update_of_ne htopic]

/-- All values can be stored exactly if they end inside `str` and no string is
changed. -/
theorem tokensStorable_iff {g : Registry UInt32 EdgeAttr} {payload : Buf} {tokens : List G1Token}
    (hvalid : ∀ token ∈ tokens, token.topic ≠ 0 ∧ token.len ≠ 0) (vals : UInt32 → AttrMem) :
    TokensStorable g payload tokens vals ↔
      (∀ token ∈ tokens, token.len ≤ attrMemSize) ∧ StringsUnchanged g payload tokens vals := by
  induction tokens generalizing vals with
  | nil => simp [TokensStorable, StringsUnchanged]
  | cons token next ih =>
      have hargs : ¬ (token.topic = 0 ∨ token.len = 0) := not_or.mpr (hvalid token (by simp))
      have hnext : ∀ t ∈ next, t.topic ≠ 0 ∧ t.len ≠ 0 := fun t ht => hvalid t (by simp [ht])
      have hbytes := Buf.length_bytes payload token.offset token.len
      have hcons : StringsUnchanged g payload (token :: next) vals ↔
          (attrType g token.topic = some .str →
            (vals token.topic).front token.len = payload.bytes token.offset token.len) ∧
          StringsUnchanged g payload next vals := List.forall_mem_cons
      rw [TokensStorable, if_neg hargs, ih hnext, valueStorable_iff, hbytes, hcons,
        List.forall_mem_cons, and_assoc, and_assoc]
      refine and_congr_right fun _ => ?_
      rw [and_left_comm]
      refine and_congr_right fun _ => and_congr_right fun hsame => ?_
      exact stringsUnchanged_storeVal (by rwa [hbytes])

/-! ## Runs -/

/-- Every entry that the reception of a packet calls is there; the token loop of
`parse_msg` is the one place where values are updated. -/
def RendersExist (env : Env) (s : EdgeState) : Event → Prop
  | .packet type module pkt size => ∀ fmt dev, s.Delivered type pkt size fmt →
      s.gDevMap.get (pktOid type pkt size) = some dev →
      ∀ ty ∈ renders (pktPayload pkt size)
          (msgPayloadLen (pktMsg pkt size) (pktMsgSize pkt size)) fmt.token
          ((s.received env type module pkt size).freshDev dev).1
          ((s.received env type module pkt size).freshDev dev).2,
        (toStringOperation ty).isSome
  | _ => True

/-- Every entry that is called is there, and the values end inside `val` and
`str`. -/
def RendersInside (env : Env) (s : EdgeState) (e : Event) : Prop :=
  RendersExist env s e ∧ e.EachAccess (ValueWithin attrMemSize) env s

/-- A packet that is delivered has no token longer than `val` and `str`, and it
changes no string. -/
def DeliversNoString (s : EdgeState) (e : Event) : Prop :=
  e.OnDelivery (fun s dev fmt payload => (∀ token ∈ fmt.token, token.len ≤ attrMemSize) ∧
    StringsUnchanged s.gAttrMap payload fmt.token dev.vals) s

theorem rendersInside_iff (env : Env) {s : EdgeState}
    (hvalid : s.EachFmt fun topic fmt => ∀ token ∈ fmt.token, token.Valid topic) (e : Event) :
    RendersInside env s e ↔ DeliversNoString s e := by
  unfold RendersInside
  rw [eachAccess_valueWithin_iff]
  cases e with
  | packet type module pkt size =>
      unfold RendersExist StoresWithin DeliversNoString Event.OnDelivery
      simp only [← forall_and]
      refine forall₂_congr fun fmt dev => forall₂_congr fun hdelivered hdev => ?_
      obtain ⟨file, hfile⟩ := EdgeState.received_eq env s type module pkt size
      obtain ⟨_, pdt, _, _, hfmt⟩ := hdelivered.exists_dev
      have htokens : ∀ token ∈ fmt.token, token.topic ≠ 0 ∧ token.len ≠ 0 := fun token hmem =>
        ⟨(hvalid.of_getG1Fmt hfmt token hmem).topic, (hvalid.of_getG1Fmt hfmt token hmem).len⟩
      rw [← tokensStorable_iff htokens, hfile]
      exact forall_renders_iff _ htokens _ _
  | _ => exact and_iff_left trivial

/-- In a run from the initial state every entry that is called is there, and the
values end inside `val` and `str`, precisely if no packet that is delivered has a
longer token or changes a string. -/
theorem rendersExist_everyStep_iff (env : Env) (mac : List UInt8) (clock : ℕ → ℕ)
    (es : List Event) :
    EveryStep (EdgeState.step env) (RendersInside env) (EdgeState.init mac clock) es ↔
      EveryStep (EdgeState.step env) DeliversNoString (EdgeState.init mac clock) es :=
  everyStep_iff (A := fun _ => True)
    (fun _ _ _ hvalid _ hstep => (fmtKept_valid.kept env).step hvalid hstep)
    (fun _ e hvalid _ => rendersInside_iff env hvalid e) (EdgeState.eachFmt_init _ mac clock)
    fun _ _ => trivial

/-- A product with a device, and a format with a token for a string. -/
def stringRun : List Event :=
  [.command (.addProduct 5 1),
    .command (.addDevice (Buf.ofBytes (List.replicate mgtAddrSize 1)) 6 0 0 5),
    .command (.addPacketFormat (Buf.ofBytes (List.replicate mgtPktSize 0)) 10 5 7 1 0 1),
    .command (.addFormatToken 5 7 1 1 0 1)]

/-- A packet of the device with one byte of payload. -/
def stringPkt : List UInt8 := [0, 0, 1, 1, 1, 1, 1, 1, 0, 0, 0, 7, 0, 1, 9]

/-- The first value of a string is rendered with no entry. -/
theorem rendersExist_fails_of_string :
    ¬ ∀ (env : Env) (mac : List UInt8) (clock : ℕ → ℕ) (es : List Event),
      EveryStep (EdgeState.step env) (RendersExist env) (EdgeState.init mac clock) es := by
  intro h
  have heval : (run (EdgeState.step Env.plain) (EdgeState.init [] fun _ => 0) stringRun).map
      (fun s => (s.pktFmt 0 (Buf.ofBytes stringPkt) 15).any fun fmt =>
        (s.gDevMap.get (pktOid 0 (Buf.ofBytes stringPkt) 15)).any fun dev =>
          decide (s.Delivered 0 (Buf.ofBytes stringPkt) 15 fmt) &&
          decide (EdgeAttrType.str ∈ renders (pktPayload (Buf.ofBytes stringPkt) 15)
            (msgPayloadLen (pktMsg (Buf.ofBytes stringPkt) 15)
              (pktMsgSize (Buf.ofBytes stringPkt) 15)) fmt.token
            ((s.received Env.plain 0 0 (Buf.ofBytes stringPkt) 15).freshDev dev).1
            ((s.received Env.plain 0 0 (Buf.ofBytes stringPkt) 15).freshDev dev).2)) =
        some true := by
    decide +kernel
  obtain ⟨s, hrun, heq⟩ := Option.map_eq_some_iff.mp heval
  simp only [Option.any_eq_true, Bool.and_eq_true, decide_eq_true_eq] at heq
  obtain ⟨fmt, _, dev, hdev, hdelivered, hmem⟩ := heq
  have hpkt := (h Env.plain [] (fun _ => 0)
    (stringRun ++ [.packet 0 0 (Buf.ofBytes stringPkt) 15])).of_append hrun
  exact absurd (hpkt fmt dev hdelivered hdev .str hmem) (by decide)

end EceLib
