import EceLib.Edge.Attr
import EceLib.Support.Memory

/-!
# Packet formats and their tokens

The model of `src/g1_fmt.c`.  A token list is kept in the order of the offsets:
a new token goes into the first gap it fits in, in front of the first token, in
between two tokens, or behind the last one if the packet is long enough.  Sizes
and offsets come from 32-bit fields of a message, so the sums below do not wrap
around in an `unsigned long`.
-/

namespace EceLib

open Support

/-! ## `g1_fmt.c` -/

/-- The search loop of `add_g1_token_internal`, from the node that follows a
token of offset `offset1` and length `len1`. -/
def insertToken (size : ℕ) (token : G1Token) (offset1 len1 : ℕ) :
    List G1Token → Option (List G1Token)
  | [] =>
      if token.offset ≥ offset1 + len1 ∧ token.offset + token.len ≤ size then
        some [token]
      else none
  | cur :: next =>
      if token.topic = cur.topic then none
      else if token.offset ≥ offset1 + len1 ∧ token.offset + token.len ≤ cur.offset then
        some (token :: cur :: next)
      else (insertToken size token cur.offset cur.len next).map (cur :: ·)

/-- `add_g1_token_internal`: the token and the format it is now part of. -/
def addG1TokenInternal (fmt : G1Fmt) (tokenTopic : UInt32) (offset len : ℕ) :
    Option (G1Token × G1Fmt) :=
  let token : G1Token := { topic := tokenTopic, offset := offset, len := len }
  (insertToken fmt.size token 0 0 fmt.token).map fun list =>
    (token, { fmt with token := list })

/-- `del_g1_token_internal`: the first token of the topic goes. -/
def delG1TokenInternal (fmt : G1Fmt) (topic : UInt32) : G1Fmt :=
  { fmt with token := fmt.token.eraseP fun token => topic = token.topic }

namespace EdgeState

/-- `get_g1_fmt`, with the product `fmt->pdt` that its result points back to. -/
def getG1FmtPdt (s : EdgeState) (topic key : UInt32) : Option (EdgePdt × G1Fmt) :=
  match s.getPdt topic with
  | none => none
  | some pdt => (pdt.fmtMap.get key).map fun fmt => (pdt, fmt)

/-- Write back a product that was changed in place, and the global map. -/
def putPdt (s : EdgeState) (pdt : EdgePdt) (g : Registry UInt32 EdgeAttr) : EdgeState :=
  { s with gPdtMap := s.gPdtMap.put pdt, gAttrMap := g }

end EdgeState

/-- A product with a format changed in place, or added. -/
def EdgePdt.putFmt (pdt : EdgePdt) (fmt : G1Fmt) : EdgePdt :=
  { pdt with fmtMap := pdt.fmtMap.put fmt }

/-- `add_g1_token`.  When the attribute is refused the token is taken out and
freed again, but still returned. -/
def addG1Token (s : EdgeState) (topic key tokenTopic type : UInt32) (offset len : ℕ) :
    Option G1Token × EdgeState :=
  if topic = 0 ∨ tokenTopic = 0 ∨ len = 0 then (none, s)
  else
    match s.getG1FmtPdt topic key with
    | none => (none, s)
    | some (pdt, fmt) =>
        match addG1TokenInternal fmt tokenTopic offset len with
        | none => (none, s)
        | some (token, fmt) =>
            match addPdtAttr (pdt.putFmt fmt) s.gAttrMap tokenTopic type len with
            | (some _, pdt, g) => (some token, s.putPdt pdt g)
            | (none, pdt, g) =>
                (some token, s.putPdt (pdt.putFmt (delG1TokenInternal fmt tokenTopic)) g)

/-- `del_g1_token`: the reference is given back before the token is looked for,
and also when there is none. -/
def delG1Token (s : EdgeState) (topic key tokenTopic : UInt32) : EdgeState :=
  if topic = 0 ∨ tokenTopic = 0 then s
  else
    match s.getG1FmtPdt topic key with
    | none => s
    | some (pdt, fmt) =>
        let (pdt, g) := delPdtAttr pdt s.gAttrMap tokenTopic
        s.putPdt (pdt.putFmt (delG1TokenInternal fmt tokenTopic)) g

/-- The format `add_g1_fmt` builds: all zero, `pkt_len` bytes copied from `pkt`
into `fmt->pkt`, and the arguments stored. -/
def freshG1Fmt (key : UInt32) (size : ℕ) (pkt : Buf) (pktLen offset len : ℕ) : G1Fmt where
  key := key
  size := size
  pkt := overwrite (List.replicate fmtPktSize 0) 0 (pkt.bytes 0 pktLen)
  pktLen := pktLen
  offset := offset
  len := len
  token := []

/-- `add_g1_fmt`.  A format that is registered under the key already is replaced. -/
def addG1Fmt (s : EdgeState) (topic key : UInt32) (size : ℕ) (pkt : Buf)
    (pktLen offset len : ℕ) : Traced Buffer EdgeState :=
  match s.getPdt topic with
  | none => pure s
  | some pdt => do
      Traced.touch ⟨.fmtAddPkt, 0, pktLen, pkt.size⟩
      Traced.require ⟨.fmtPkt, 0, pktLen, fmtPktSize⟩
      let fmt := freshG1Fmt key size pkt pktLen offset len
      pure (s.putPdt (pdt.putFmt fmt) s.gAttrMap)

/-- The loop of `del_g1_fmt_internal`: give back a reference for each token. -/
def delTokenAttrs (pdt : EdgePdt) (g : Registry UInt32 EdgeAttr) (tokens : List G1Token) :
    EdgePdt × Registry UInt32 EdgeAttr :=
  tokens.foldl (fun st token => delPdtAttr st.1 st.2 token.topic) (pdt, g)

/-- `del_g1_fmt_internal`, on a format of `pdt`. -/
def delG1FmtInternal (pdt : EdgePdt) (g : Registry UInt32 EdgeAttr) (fmt : G1Fmt) :
    EdgePdt × Registry UInt32 EdgeAttr :=
  let (pdt, g) := delTokenAttrs pdt g fmt.token
  ({ pdt with fmtMap := pdt.fmtMap.remove fmt.key }, g)

/-- `del_g1_fmt`. -/
def delG1Fmt (s : EdgeState) (topic key : UInt32) : EdgeState :=
  match s.getPdt topic with
  | none => s
  | some pdt =>
      match pdt.fmtMap.get key with
      | none => s
      | some fmt =>
          let (pdt, g) := delG1FmtInternal pdt s.gAttrMap fmt
          s.putPdt pdt g

/-! ## Token lists -/

/-- How many tokens of a list extract the attribute `topic`. -/
def topicCount (tokens : List G1Token) (topic : UInt32) : ℕ :=
  tokens.countP fun token => topic = token.topic

/-- The tokens follow each other without overlap, from `lo` on and within
`size` bytes. -/
def TokensLaid (size lo : ℕ) : List G1Token → Prop
  | [] => True
  | token :: next =>
      lo ≤ token.offset ∧ token.offset + token.len ≤ size ∧
        TokensLaid size (token.offset + token.len) next

/-- What `insertToken` can do: the token goes somewhere into the list, and no
token in front of it has its topic. -/
theorem insertToken_eq_some {size : ℕ} {token : G1Token} {offset1 len1 : ℕ}
    {tokens tokens' : List G1Token}
    (h : insertToken size token offset1 len1 tokens = some tokens') :
    ∃ front back, tokens = front ++ back ∧ tokens' = front ++ token :: back ∧
      ∀ cur ∈ front, token.topic ≠ cur.topic := by
  induction tokens generalizing offset1 len1 tokens' with
  | nil =>
      simp only [insertToken, Option.ite_none_right_eq_some, Option.some.injEq] at h
      exact ⟨[], [], rfl, h.2.symm, by simp⟩
  | cons cur next ih =>
      rw [insertToken] at h
      by_cases htopic : token.topic = cur.topic
      · simp [htopic] at h
      · rw [if_neg htopic] at h
        by_cases hgap : token.offset ≥ offset1 + len1 ∧ token.offset + token.len ≤ cur.offset
        · rw [if_pos hgap, Option.some.injEq] at h
          exact ⟨[], cur :: next, rfl, h.symm, by simp⟩
        · rw [if_neg hgap] at h
          obtain ⟨rest, hrest, rfl⟩ := Option.map_eq_some_iff.mp h
          obtain ⟨front, back, rfl, rfl, hfront⟩ := ih hrest
          refine ⟨cur :: front, back, rfl, rfl, ?_⟩
          intro t ht
          rcases List.mem_cons.mp ht with rfl | ht
          · exact htopic
          · exact hfront t ht

theorem insertToken_perm {size : ℕ} {token : G1Token} {offset1 len1 : ℕ}
    {tokens tokens' : List G1Token}
    (h : insertToken size token offset1 len1 tokens = some tokens') :
    tokens'.Perm (token :: tokens) := by
  obtain ⟨front, back, rfl, rfl, _⟩ := insertToken_eq_some h
  exact List.perm_middle

/-- The token that was inserted is the first one of its topic, so taking it out
gives back the list before. -/
theorem eraseP_insertToken {size : ℕ} {token : G1Token} {offset1 len1 : ℕ}
    {tokens tokens' : List G1Token}
    (h : insertToken size token offset1 len1 tokens = some tokens') :
    tokens'.eraseP (fun cur => token.topic = cur.topic) = tokens := by
  obtain ⟨front, back, rfl, rfl, hfront⟩ := insertToken_eq_some h
  rw [List.eraseP_append_right _ (by simpa using hfront)]
  simp

/-- Inserting keeps the tokens laid out one after the other. -/
theorem TokensLaid.insertToken {size : ℕ} {token : G1Token} {offset1 len1 : ℕ}
    {tokens tokens' : List G1Token}
    (hlaid : TokensLaid size (offset1 + len1) tokens)
    (h : insertToken size token offset1 len1 tokens = some tokens') :
    TokensLaid size (offset1 + len1) tokens' := by
  induction tokens generalizing offset1 len1 tokens' with
  | nil =>
      simp only [EceLib.insertToken, Option.ite_none_right_eq_some, Option.some.injEq] at h
      obtain ⟨hfits, rfl⟩ := h
      exact ⟨hfits.1, hfits.2, trivial⟩
  | cons cur next ih =>
      obtain ⟨hlo, hsize, hnext⟩ := hlaid
      rw [EceLib.insertToken] at h
      by_cases htopic : token.topic = cur.topic
      · simp [htopic] at h
      · rw [if_neg htopic] at h
        by_cases hgap : token.offset ≥ offset1 + len1 ∧ token.offset + token.len ≤ cur.offset
        · rw [if_pos hgap, Option.some.injEq] at h
          subst h
          exact ⟨hgap.1, by omega, hgap.2, hsize, hnext⟩
        · rw [if_neg hgap] at h
          obtain ⟨rest, hrest, rfl⟩ := Option.map_eq_some_iff.mp h
          exact ⟨hlo, hsize, ih hnext hrest⟩

theorem TokensLaid.mono {size lo lo' : ℕ} {tokens : List G1Token}
    (h : TokensLaid size lo tokens) (hle : lo' ≤ lo) : TokensLaid size lo' tokens := by
  cases tokens with
  | nil => trivial
  | cons cur next => exact ⟨hle.trans h.1, h.2⟩

theorem TokensLaid.eraseP {size lo : ℕ} {tokens : List G1Token}
    (h : TokensLaid size lo tokens) (p : G1Token → Bool) :
    TokensLaid size lo (tokens.eraseP p) := by
  induction tokens generalizing lo with
  | nil => trivial
  | cons cur next ih =>
      obtain ⟨hlo, hsize, hnext⟩ := h
      by_cases hp : p cur
      · rw [List.eraseP_cons_of_pos hp]
        exact hnext.mono (by omega)
      · rw [List.eraseP_cons_of_neg hp]
        exact ⟨hlo, hsize, ih hnext⟩

/-- The last token of a list ends behind every other. -/
theorem TokensLaid.le_getLast {size lo : ℕ} {tokens : List G1Token}
    (h : TokensLaid size lo tokens) {last : G1Token} (hlast : tokens.getLast? = some last) :
    ∀ token ∈ tokens, token.offset + token.len ≤ last.offset + last.len := by
  induction tokens generalizing lo with
  | nil => simp
  | cons cur next ih =>
      obtain ⟨_, _, hnext⟩ := h
      intro token hmem
      cases next with
      | nil =>
          obtain rfl : cur = last := by simpa using hlast
          rw [List.mem_singleton.mp hmem]
      | cons cur₂ next₂ =>
          have hlast' : (cur₂ :: next₂).getLast? = some last := by
            simpa using hlast
          rcases List.mem_cons.mp hmem with rfl | hmem
          · have hcur₂ := ih hnext hlast' cur₂ (by simp)
            have hle : token.offset + token.len ≤ cur₂.offset := hnext.1
            omega
          · exact ih hnext hlast' token hmem

theorem topicCount_perm {tokens tokens' : List G1Token} (h : tokens.Perm tokens')
    (topic : UInt32) : topicCount tokens topic = topicCount tokens' topic :=
  h.countP_eq _

@[simp] theorem topicCount_nil (topic : UInt32) : topicCount [] topic = 0 := rfl

theorem topicCount_cons (token : G1Token) (tokens : List G1Token) (topic : UInt32) :
    topicCount (token :: tokens) topic =
      topicCount tokens topic + if topic = token.topic then 1 else 0 := by
  simp [topicCount, List.countP_cons]

/-- Taking out the first token of a topic, if there is one. -/
theorem topicCount_eraseP (tokens : List G1Token) (topic t : UInt32) :
    topicCount (tokens.eraseP fun token => topic = token.topic) t =
      topicCount tokens t - if t = topic then 1 else 0 := by
  induction tokens with
  | nil => simp
  | cons cur next ih =>
      by_cases hcur : topic = cur.topic
      · rw [List.eraseP_cons_of_pos (by simpa using hcur), topicCount_cons, ← hcur]
        by_cases ht : t = topic
        · simp [ht]
        · simp [ht]
      · rw [List.eraseP_cons_of_neg (by simpa using hcur), topicCount_cons, topicCount_cons, ih]
        by_cases ht : t = topic
        · have htcur : t ≠ cur.topic := ht ▸ hcur
          simp [ht, hcur]
        · simp [ht]

theorem topicCount_eq_zero_iff {tokens : List G1Token} {topic : UInt32} :
    topicCount tokens topic = 0 ↔ ¬ ∃ token ∈ tokens, token.topic = topic := by
  simp only [topicCount, List.countP_eq_zero, decide_eq_true_eq, eq_comm (a := topic),
    not_exists, not_and]

theorem forall_topicCount_eq_zero_iff {tokens : List G1Token} :
    (∀ t, topicCount tokens t = 0) ↔ tokens = [] := by
  constructor
  · intro h
    apply List.eq_nil_iff_forall_not_mem.mpr
    intro token hmem
    exact topicCount_eq_zero_iff.mp (h token.topic) ⟨token, hmem, rfl⟩
  · rintro rfl t
    rfl

/-! ## What the operations do -/

/-- There is one format of a topic and a key. -/
theorem EdgeState.forall_fmt {s : EdgeState} {topic key : UInt32} {pdt : EdgePdt} {fmt : G1Fmt}
    (hpdt : s.gPdtMap.get topic = some pdt) (hfmt : pdt.fmtMap.get key = some fmt)
    {P : EdgePdt → G1Fmt → Prop} (h : P pdt fmt) :
    ∀ pdt fmt, s.gPdtMap.get topic = some pdt → pdt.fmtMap.get key = some fmt → P pdt fmt := by
  intro pdt' fmt' hpdt' hfmt'
  obtain rfl := Option.some.inj (hpdt.symm.trans hpdt')
  obtain rfl := Option.some.inj (hfmt.symm.trans hfmt')
  exact h

theorem EdgeState.getG1FmtPdt_eq_some_iff {s : EdgeState} {topic key : UInt32}
    {pdt : EdgePdt} {fmt : G1Fmt} :
    s.getG1FmtPdt topic key = some (pdt, fmt) ↔
      s.gPdtMap.get topic = some pdt ∧ pdt.fmtMap.get key = some fmt := by
  unfold getG1FmtPdt getPdt
  cases hpdt : s.gPdtMap.get topic with
  | none => simp
  | some pdt' =>
      simp only [Option.map_eq_some_iff, Prod.mk.injEq, Option.some.injEq]
      constructor
      · rintro ⟨fmt', hfmt, rfl, rfl⟩
        exact ⟨rfl, hfmt⟩
      · rintro ⟨rfl, hfmt⟩
        exact ⟨fmt, hfmt, rfl, rfl⟩

theorem EdgeState.putPdt_self {s : EdgeState} {topic : UInt32} {pdt : EdgePdt}
    (h : s.gPdtMap.get topic = some pdt) : s.putPdt pdt s.gAttrMap = s := by
  have hkey : pdt.topic = topic := Registry.key_of_get h
  rw [← hkey] at h
  rw [putPdt, Registry.put_self h]

/-- A product with other contents takes the place of a product. -/
theorem EdgeState.get_putPdt {s : EdgeState} {topic : UInt32} {pdt pdt' : EdgePdt}
    {g : Registry UInt32 EdgeAttr} (hget : s.gPdtMap.get topic = some pdt)
    (hkey : pdt'.topic = pdt.topic) : (s.putPdt pdt' g).gPdtMap.get topic = some pdt' := by
  have htopic : pdt.topic = topic := Registry.key_of_get hget
  rw [← htopic, ← hkey]
  exact Registry.get_put_self _ pdt'

/-- A format with other contents takes the place of a format. -/
theorem EdgePdt.get_putFmt {pdt : EdgePdt} {key : UInt32} {fmt fmt' : G1Fmt}
    (hget : pdt.fmtMap.get key = some fmt) (hkey : fmt'.key = fmt.key) :
    (pdt.putFmt fmt').fmtMap.get key = some fmt' := by
  have hfmt : fmt.key = key := Registry.key_of_get hget
  rw [← hfmt, ← hkey]
  exact Registry.get_put_self _ fmt'

theorem EdgePdt.putFmt_self {pdt : EdgePdt} {key : UInt32} {fmt : G1Fmt}
    (h : pdt.fmtMap.get key = some fmt) : pdt.putFmt fmt = pdt := by
  have hfmt : fmt.key = key := Registry.key_of_get h
  rw [← hfmt] at h
  rw [putFmt, Registry.put_self h]

theorem EdgePdt.putFmt_putFmt {pdt : EdgePdt} {key : UInt32} {fmt fmt' : G1Fmt}
    (h : pdt.fmtMap.get key = some fmt) (hkey : fmt'.key = fmt.key) :
    (pdt.putFmt fmt').putFmt fmt = pdt := by
  have hfmt : fmt.key = key := Registry.key_of_get h
  rw [← hfmt] at h
  simp only [putFmt, Registry.put_put pdt.fmtMap hkey, Registry.put_self h]

theorem addG1TokenInternal_eq_some {fmt fmt' : G1Fmt} {tokenTopic : UInt32} {offset len : ℕ}
    {token : G1Token}
    (h : addG1TokenInternal fmt tokenTopic offset len = some (token, fmt')) :
    token = ⟨tokenTopic, offset, len⟩ ∧
      ∃ tokens, insertToken fmt.size ⟨tokenTopic, offset, len⟩ 0 0 fmt.token = some tokens ∧
        fmt' = { fmt with token := tokens } := by
  obtain ⟨tokens, htokens, heq⟩ := Option.map_eq_some_iff.mp h
  cases heq
  exact ⟨rfl, tokens, htokens, rfl⟩

/-- A token that has a place goes into the list, and its attribute is added. -/
theorem addG1Token_of_place {s : EdgeState} {topic key tokenTopic type : UInt32}
    {offset len : ℕ} {pdt : EdgePdt} {fmt : G1Fmt} {tokens : List G1Token}
    (htopic : topic ≠ 0) (htoken : tokenTopic ≠ 0) (htype : EdgeAttrType.ofCode type ≠ none)
    (hlen : len ≠ 0) (hpdt : s.gPdtMap.get topic = some pdt)
    (hfmt : pdt.fmtMap.get key = some fmt)
    (htokens : insertToken fmt.size ⟨tokenTopic, offset, len⟩ 0 0 fmt.token = some tokens) :
    addG1Token s topic key tokenTopic type offset len =
      (some ⟨tokenTopic, offset, len⟩, s.putPdt
        (addPdtAttr (pdt.putFmt { fmt with token := tokens }) s.gAttrMap tokenTopic type len).2.1
        (addPdtAttr (pdt.putFmt { fmt with token := tokens }) s.gAttrMap tokenTopic type
          len).2.2) := by
  have hargs : ¬ (topic = 0 ∨ tokenTopic = 0 ∨ len = 0) := by
    simp only [not_or]
    exact ⟨htopic, htoken, hlen⟩
  have hfind : s.getG1FmtPdt topic key = some (pdt, fmt) :=
    EdgeState.getG1FmtPdt_eq_some_iff.mpr ⟨hpdt, hfmt⟩
  have hadd : addG1TokenInternal fmt tokenTopic offset len =
      some (⟨tokenTopic, offset, len⟩, { fmt with token := tokens }) := by
    simp only [addG1TokenInternal, htokens, Option.map_some]
  obtain ⟨attr, eattr, _, _, _, _, heq⟩ :=
    addPdtAttr_of_valid (pdt.putFmt { fmt with token := tokens }) s.gAttrMap htoken htype hlen
  unfold addG1Token
  simp only [if_neg hargs, hfind, hadd, heq]

/-- A token that fits, of a valid type, is added, with one reference to each of
the two counts. -/
theorem addG1Token_of_insert {s : EdgeState} {topic key tokenTopic type : UInt32}
    {offset len : ℕ} {pdt : EdgePdt} {fmt : G1Fmt} {tokens : List G1Token}
    (htopic : topic ≠ 0) (htoken : tokenTopic ≠ 0) (htype : EdgeAttrType.ofCode type ≠ none)
    (hlen : len ≠ 0) (hpdt : s.gPdtMap.get topic = some pdt)
    (hfmt : pdt.fmtMap.get key = some fmt)
    (htokens : insertToken fmt.size ⟨tokenTopic, offset, len⟩ 0 0 fmt.token = some tokens) :
    ∃ (attr : PdtAttr) (eattr : EdgeAttr),
      attr.topic = tokenTopic ∧ attr.ref = pdt.attrMap.refs tokenTopic + 1 ∧
      eattr.topic = tokenTopic ∧ eattr.ref = s.gAttrMap.refs tokenTopic + 1 ∧
      addG1Token s topic key tokenTopic type offset len =
        (some ⟨tokenTopic, offset, len⟩, s.putPdt
          { pdt.putFmt { fmt with token := tokens } with attrMap := pdt.attrMap.put attr }
          (s.gAttrMap.put eattr)) := by
  obtain ⟨attr, eattr, hattr, href, heattr, heref, heq⟩ :=
    addPdtAttr_of_valid (pdt.putFmt { fmt with token := tokens }) s.gAttrMap htoken htype hlen
  refine ⟨attr, eattr, hattr, href, heattr, heref, ?_⟩
  rw [addG1Token_of_place htopic htoken htype hlen hpdt hfmt htokens, heq]
  rfl

/-- Without a place in a format of the product `add_g1_token` does nothing. -/
theorem addG1Token_of_no_place {s : EdgeState} {topic key tokenTopic : UInt32} {offset len : ℕ}
    (h : topic ≠ 0 → tokenTopic ≠ 0 → len ≠ 0 → ∀ pdt fmt, s.gPdtMap.get topic = some pdt →
      pdt.fmtMap.get key = some fmt →
        insertToken fmt.size ⟨tokenTopic, offset, len⟩ 0 0 fmt.token = none)
    (type : UInt32) : addG1Token s topic key tokenTopic type offset len = (none, s) := by
  unfold addG1Token
  by_cases hargs : topic = 0 ∨ tokenTopic = 0 ∨ len = 0
  · rw [if_pos hargs]
  · rw [if_neg hargs]
    obtain ⟨htopic, htoken, hlen⟩ : topic ≠ 0 ∧ tokenTopic ≠ 0 ∧ len ≠ 0 := by
      simpa only [not_or] using hargs
    cases hfind : s.getG1FmtPdt topic key with
    | none => rfl
    | some found =>
        obtain ⟨hpdt, hfmt⟩ := EdgeState.getG1FmtPdt_eq_some_iff.mp hfind
        have hadd : addG1TokenInternal found.2 tokenTopic offset len = none := by
          rw [addG1TokenInternal, h htopic htoken hlen _ _ hpdt hfmt, Option.map_none]
        simp only [hadd]

/-- When the attribute is refused the list is rolled back, and the token that
was freed is returned. -/
theorem addG1Token_of_invalid {s : EdgeState} {topic key tokenTopic type : UInt32}
    {offset len : ℕ} {pdt : EdgePdt} {fmt : G1Fmt} {tokens : List G1Token}
    (htopic : topic ≠ 0) (htoken : tokenTopic ≠ 0) (htype : EdgeAttrType.ofCode type = none)
    (hlen : len ≠ 0) (hpdt : s.gPdtMap.get topic = some pdt)
    (hfmt : pdt.fmtMap.get key = some fmt)
    (htokens : insertToken fmt.size ⟨tokenTopic, offset, len⟩ 0 0 fmt.token = some tokens) :
    addG1Token s topic key tokenTopic type offset len = (some ⟨tokenTopic, offset, len⟩, s) := by
  have hargs : ¬ (topic = 0 ∨ tokenTopic = 0 ∨ len = 0) := by
    simp only [not_or]
    exact ⟨htopic, htoken, hlen⟩
  have hfind : s.getG1FmtPdt topic key = some (pdt, fmt) :=
    EdgeState.getG1FmtPdt_eq_some_iff.mpr ⟨hpdt, hfmt⟩
  have hadd : addG1TokenInternal fmt tokenTopic offset len =
      some (⟨tokenTopic, offset, len⟩, { fmt with token := tokens }) := by
    simp only [addG1TokenInternal, htokens, Option.map_some]
  have hback : delG1TokenInternal { fmt with token := tokens } tokenTopic = fmt := by
    rw [delG1TokenInternal, eraseP_insertToken htokens]
  have hpdt' : (pdt.putFmt { fmt with token := tokens }).putFmt fmt = pdt :=
    EdgePdt.putFmt_putFmt hfmt rfl
  unfold addG1Token
  simp only [if_neg hargs, hfind, hadd, addPdtAttr_of_invalid (Or.inr (Or.inl htype)), hback,
    hpdt', EdgeState.putPdt_self hpdt]

/-- `add_g1_token` leaves everything as it is, or adds one token to the format
and one reference to each of the two counts. -/
theorem addG1Token_cases (s : EdgeState) (topic key tokenTopic type : UInt32)
    (offset len : ℕ) :
    (addG1Token s topic key tokenTopic type offset len).2 = s ∨
      ∃ (pdt : EdgePdt) (fmt : G1Fmt) (tokens : List G1Token) (attr : PdtAttr)
        (eattr : EdgeAttr),
        s.gPdtMap.get topic = some pdt ∧ pdt.fmtMap.get key = some fmt ∧
        topic ≠ 0 ∧ tokenTopic ≠ 0 ∧ EdgeAttrType.ofCode type ≠ none ∧ len ≠ 0 ∧
        insertToken fmt.size ⟨tokenTopic, offset, len⟩ 0 0 fmt.token = some tokens ∧
        attr.topic = tokenTopic ∧ attr.ref = pdt.attrMap.refs tokenTopic + 1 ∧
        eattr.topic = tokenTopic ∧ eattr.ref = s.gAttrMap.refs tokenTopic + 1 ∧
        (addG1Token s topic key tokenTopic type offset len).2 =
          s.putPdt
            { pdt.putFmt { fmt with token := tokens } with attrMap := pdt.attrMap.put attr }
            (s.gAttrMap.put eattr) := by
  by_cases hplace : ∃ (pdt : EdgePdt) (fmt : G1Fmt) (tokens : List G1Token),
      topic ≠ 0 ∧ tokenTopic ≠ 0 ∧ len ≠ 0 ∧ s.gPdtMap.get topic = some pdt ∧
        pdt.fmtMap.get key = some fmt ∧
        insertToken fmt.size ⟨tokenTopic, offset, len⟩ 0 0 fmt.token = some tokens
  · obtain ⟨pdt, fmt, tokens, htopic, htoken, hlen, hpdt, hfmt, htokens⟩ := hplace
    by_cases htype : EdgeAttrType.ofCode type = none
    · rw [addG1Token_of_invalid htopic htoken htype hlen hpdt hfmt htokens]
      exact Or.inl rfl
    · obtain ⟨attr, eattr, hattr, href, heattr, heref, heq⟩ :=
        addG1Token_of_insert htopic htoken htype hlen hpdt hfmt htokens
      rw [heq]
      exact Or.inr ⟨pdt, fmt, tokens, attr, eattr, hpdt, hfmt, htopic, htoken, htype, hlen,
        htokens, hattr, href, heattr, heref, rfl⟩
  · refine Or.inl ?_
    rw [addG1Token_of_no_place]
    intro htopic htoken hlen pdt fmt hpdt hfmt
    by_contra hsome
    obtain ⟨tokens, htokens⟩ := Option.ne_none_iff_exists'.mp hsome
    exact hplace ⟨pdt, fmt, tokens, htopic, htoken, hlen, hpdt, hfmt, htokens⟩

/-- `del_g1_token` leaves everything as it is, as there is no such format, or
takes a reference and the first token of the topic, if there is one. -/
theorem delG1Token_cases (s : EdgeState) (topic key tokenTopic : UInt32) :
    (delG1Token s topic key tokenTopic = s ∧ (topic ≠ 0 → tokenTopic ≠ 0 →
        ∀ pdt fmt, s.gPdtMap.get topic = some pdt → pdt.fmtMap.get key ≠ some fmt)) ∨
      ∃ (pdt : EdgePdt) (fmt : G1Fmt),
        topic ≠ 0 ∧ tokenTopic ≠ 0 ∧
        s.gPdtMap.get topic = some pdt ∧ pdt.fmtMap.get key = some fmt ∧
        delG1Token s topic key tokenTopic =
          s.putPdt
            ((delPdtAttr pdt s.gAttrMap tokenTopic).1.putFmt
              (delG1TokenInternal fmt tokenTopic))
            (delPdtAttr pdt s.gAttrMap tokenTopic).2 := by
  unfold delG1Token
  by_cases hargs : topic = 0 ∨ tokenTopic = 0
  · rw [if_pos hargs]
    exact Or.inl ⟨rfl, fun h0 ht0 => absurd hargs (not_or.mpr ⟨h0, ht0⟩)⟩
  · rw [if_neg hargs]
    cases hfind : s.getG1FmtPdt topic key with
    | none =>
        refine Or.inl ⟨rfl, fun _ _ pdt fmt hpdt hfmt => ?_⟩
        rw [EdgeState.getG1FmtPdt_eq_some_iff.mpr ⟨hpdt, hfmt⟩] at hfind
        cases hfind
    | some found =>
        obtain ⟨pdt, fmt⟩ := found
        obtain ⟨hpdt, hfmt⟩ := EdgeState.getG1FmtPdt_eq_some_iff.mp hfind
        obtain ⟨h0, ht0⟩ := not_or.mp hargs
        exact Or.inr ⟨pdt, fmt, h0, ht0, hpdt, hfmt, rfl⟩

theorem addG1Fmt_cases {s s' : EdgeState} {topic key : UInt32} {size : ℕ} {pkt : Buf}
    {pktLen offset len : ℕ}
    (h : (addG1Fmt s topic key size pkt pktLen offset len).val = some s') :
    (s.gPdtMap.get topic = none ∧ s' = s) ∨
      ∃ pdt, s.gPdtMap.get topic = some pdt ∧ pktLen ≤ fmtPktSize ∧
        s' = s.putPdt (pdt.putFmt (freshG1Fmt key size pkt pktLen offset len)) s.gAttrMap := by
  unfold addG1Fmt EdgeState.getPdt at h
  cases hpdt : s.gPdtMap.get topic with
  | none =>
      simp only [hpdt, Traced.val_pure, Option.some.injEq] at h
      exact Or.inl ⟨rfl, h.symm⟩
  | some pdt =>
      simp only [hpdt, Traced.val_bind, Traced.val_touch, Option.bind_some, Traced.val_require,
        Traced.val_pure] at h
      by_cases hlen : pktLen ≤ fmtPktSize
      · simp only [Access.InBounds, Nat.zero_add, hlen, if_true, Option.bind_some,
          Option.some.injEq] at h
        exact Or.inr ⟨pdt, rfl, hlen, h.symm⟩
      · simp [Access.InBounds, hlen] at h

/-- Giving back references changes nothing of the product but its attributes. -/
theorem delTokenAttrs_fst (pdt : EdgePdt) (g : Registry UInt32 EdgeAttr)
    (tokens : List G1Token) :
    ∃ attrMap, (delTokenAttrs pdt g tokens).1 = { pdt with attrMap := attrMap } := by
  induction tokens generalizing pdt g with
  | nil => exact ⟨pdt.attrMap, rfl⟩
  | cons token tokens ih =>
      obtain ⟨attrMap, hrest⟩ :=
        ih (delPdtAttr pdt g token.topic).1 (delPdtAttr pdt g token.topic).2
      rw [delPdtAttr_fst pdt g token.topic] at hrest
      exact ⟨attrMap, by rw [delTokenAttrs, List.foldl_cons, ← hrest, ← delPdtAttr_fst]; rfl⟩

theorem delG1FmtInternal_fst (pdt : EdgePdt) (g : Registry UInt32 EdgeAttr) (fmt : G1Fmt) :
    ∃ attrMap, (delG1FmtInternal pdt g fmt).1 =
      { pdt with attrMap := attrMap, fmtMap := pdt.fmtMap.remove fmt.key } := by
  obtain ⟨attrMap, h⟩ := delTokenAttrs_fst pdt g fmt.token
  exact ⟨attrMap, by simp only [delG1FmtInternal, h]⟩

/-- `del_g1_fmt` leaves everything as it is, or deletes the format. -/
theorem delG1Fmt_cases (s : EdgeState) (topic key : UInt32) :
    delG1Fmt s topic key = s ∨
      ∃ (pdt : EdgePdt) (fmt : G1Fmt),
        s.gPdtMap.get topic = some pdt ∧ pdt.fmtMap.get key = some fmt ∧
        delG1Fmt s topic key =
          s.putPdt (delG1FmtInternal pdt s.gAttrMap fmt).1
            (delG1FmtInternal pdt s.gAttrMap fmt).2 := by
  unfold delG1Fmt EdgeState.getPdt
  cases hpdt : s.gPdtMap.get topic with
  | none => exact Or.inl rfl
  | some pdt =>
      cases hfmt : pdt.fmtMap.get key with
      | none => simp [hfmt]
      | some fmt =>
          simp only [hfmt]
          exact Or.inr ⟨pdt, fmt, rfl, hfmt, rfl⟩

theorem delG1Fmt_of_get {s : EdgeState} {topic key : UInt32} {pdt : EdgePdt} {fmt : G1Fmt}
    (hpdt : s.gPdtMap.get topic = some pdt) (hfmt : pdt.fmtMap.get key = some fmt) :
    delG1Fmt s topic key =
      s.putPdt (delG1FmtInternal pdt s.gAttrMap fmt).1
        (delG1FmtInternal pdt s.gAttrMap fmt).2 := by
  simp only [delG1Fmt, EdgeState.getPdt, hpdt, hfmt]

end EceLib
