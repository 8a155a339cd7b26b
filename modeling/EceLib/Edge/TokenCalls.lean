import EceLib.Edge.AttrReferences
import EceLib.Edge.TokenLayout

/-!
# The two calls on tokens

`add_g1_token` and `del_g1_token` each change a token list and two counts.  The
first is atomic: when the attribute is refused the token is taken out again.
But then it returns the token that was freed.  The second gives back a
reference and takes out a token, and does the one without the other when the
product has an attribute that the format has no token for, or no attribute for
a token of the format.
-/

namespace EceLib

open Support

/-! ## The place for a token -/

/-- Where the last token of a list ends. -/
def endOf (start : ℕ) (tokens : List G1Token) : ℕ := (tokens.getLast?.map G1Token.stop).getD start

/-- Where the first token of a list begins. -/
def beginOf (size : ℕ) (tokens : List G1Token) : ℕ := (tokens.head?.map G1Token.offset).getD size

/-- The list has a gap for the token, and neither a token in front of the gap
nor the first one behind it has its topic. -/
def HasGap (size start : ℕ) (token : G1Token) (tokens : List G1Token) : Prop :=
  ∃ front back, tokens = front ++ back ∧ endOf start front ≤ token.offset ∧
    token.stop ≤ beginOf size back ∧ ∀ cur ∈ front ++ back.take 1, cur.topic ≠ token.topic

theorem endOf_cons (start : ℕ) (cur : G1Token) (tokens : List G1Token) :
    endOf start (cur :: tokens) = endOf cur.stop tokens := by
  unfold endOf
  rw [List.getLast?_cons]
  cases tokens.getLast? <;> rfl

/-- The first token of a list is passed. -/
theorem hasGap_cons_iff {size start : ℕ} {token cur : G1Token} {tokens : List G1Token}
    (htopic : cur.topic ≠ token.topic)
    (hgap : ¬ (start ≤ token.offset ∧ token.stop ≤ cur.offset)) :
    HasGap size start token (cur :: tokens) ↔ HasGap size cur.stop token tokens := by
  constructor
  · rintro ⟨front, back, hsplit, hend, hbegin, htopics⟩
    rcases List.cons_eq_append_iff.mp hsplit with ⟨rfl, rfl⟩ | ⟨front', rfl, rfl⟩
    · exact absurd ⟨hend, hbegin⟩ hgap
    · rw [endOf_cons] at hend
      rw [List.cons_append] at htopics
      exact ⟨front', back, rfl, hend, hbegin, (List.forall_mem_cons.mp htopics).2⟩
  · rintro ⟨front, back, rfl, hend, hbegin, htopics⟩
    refine ⟨cur :: front, back, rfl, ?_, hbegin, ?_⟩
    · rwa [endOf_cons]
    · rw [List.cons_append]
      exact List.forall_mem_cons.mpr ⟨htopic, htopics⟩

/-- The search is successful precisely if there is a gap, in any list. -/
theorem isSome_insertToken_iff {size offset1 len1 : ℕ} {token : G1Token}
    {tokens : List G1Token} :
    (insertToken size token offset1 len1 tokens).isSome ↔
      HasGap size (offset1 + len1) token tokens := by
  induction tokens generalizing offset1 len1 with
  | nil =>
      have hnil : (insertToken size token offset1 len1 []).isSome ↔
          offset1 + len1 ≤ token.offset ∧ token.stop ≤ size := by
        simp [insertToken, G1Token.stop]
      rw [hnil]
      constructor
      · rintro ⟨hstart, hsize⟩
        exact ⟨[], [], rfl, hstart, hsize, by simp⟩
      · rintro ⟨front, back, hsplit, hend, hbegin, _⟩
        obtain ⟨rfl, rfl⟩ := List.append_eq_nil_iff.mp hsplit.symm
        exact ⟨hend, hbegin⟩
  | cons cur next ih =>
      rw [insertToken]
      by_cases htopic : token.topic = cur.topic
      · rw [if_pos htopic]
        refine iff_of_false (by simp) ?_
        rintro ⟨front, back, hsplit, _, _, htopics⟩
        have hmem : cur ∈ front ++ back.take 1 := by
          rcases List.cons_eq_append_iff.mp hsplit with ⟨rfl, rfl⟩ | ⟨front', rfl, _⟩
          · simp
          · simp
        exact htopics cur hmem htopic.symm
      · rw [if_neg htopic]
        by_cases hgap : token.offset ≥ offset1 + len1 ∧ token.offset + token.len ≤ cur.offset
        · rw [if_pos hgap]
          refine iff_of_true (by simp) ⟨[], cur :: next, rfl, hgap.1, hgap.2, ?_⟩
          simpa using Ne.symm htopic
        · rw [if_neg hgap, Option.isSome_map, ih,
            hasGap_cons_iff (Ne.symm htopic) fun h => hgap h]
          rfl

/-! ## `add_g1_token` -/

/-- `add_g1_token` finds a place for the token: its arguments are proper, there
is such a format, and it has a gap. -/
structure EdgeState.HasPlace (s : EdgeState) (topic key : UInt32) (token : G1Token) : Prop where
  topic_ne : topic ≠ 0
  token_ne : token.topic ≠ 0
  len_ne : token.len ≠ 0
  gap : ∃ pdt fmt, s.gPdtMap.get topic = some pdt ∧ pdt.fmtMap.get key = some fmt ∧
    HasGap fmt.size 0 token fmt.token

/-- What `add_g1_token` should come to: the token is returned, it is in the list
of the format, and there is one reference more to its topic; or nothing is
returned, and nothing is changed. -/
inductive EdgeState.AddedOrRefused (s : EdgeState) (topic key : UInt32) (token : G1Token) :
    Option G1Token × EdgeState → Prop where
  | added {s' : EdgeState} {pdt pdt' : EdgePdt} {fmt' : G1Fmt} :
      s.gPdtMap.get topic = some pdt → s'.gPdtMap.get topic = some pdt' →
      pdt'.fmtMap.get key = some fmt' → token ∈ fmt'.token →
      pdt'.refs token.topic = pdt.refs token.topic + 1 →
      s'.gAttrMap.refs token.topic = s.gAttrMap.refs token.topic + 1 →
      AddedOrRefused s topic key token (some token, s')
  | refused : AddedOrRefused s topic key token (none, s)

/-- The result of `add_g1_token` tells what happened, precisely unless a place
was found for a token whose type is not one of an attribute. -/
theorem addedOrRefused_iff (s : EdgeState) (topic key tokenTopic type : UInt32)
    (offset len : ℕ) :
    s.AddedOrRefused topic key ⟨tokenTopic, offset, len⟩
        (addG1Token s topic key tokenTopic type offset len) ↔
      EdgeAttrType.ofCode type ≠ none ∨ ¬ s.HasPlace topic key ⟨tokenTopic, offset, len⟩ := by
  by_cases hplace : s.HasPlace topic key ⟨tokenTopic, offset, len⟩
  · obtain ⟨pdt, fmt, hpdt, hfmt, hgap⟩ := hplace.gap
    have hsome : (insertToken fmt.size ⟨tokenTopic, offset, len⟩ 0 0 fmt.token).isSome :=
      isSome_insertToken_iff.mpr hgap
    obtain ⟨tokens, htokens⟩ := Option.isSome_iff_exists.mp hsome
    by_cases htype : EdgeAttrType.ofCode type = none
    · -- the token is returned although the state is the old one
      rw [addG1Token_of_invalid hplace.topic_ne hplace.token_ne htype hplace.len_ne hpdt hfmt
        htokens]
      refine iff_of_false ?_ (by simp [htype, hplace])
      rintro (⟨_, _, _, _, _, hglobal⟩ | _)
      omega
    · obtain ⟨attr, eattr, hattr, href, heattr, heref, heq⟩ :=
        addG1Token_of_insert hplace.topic_ne hplace.token_ne htype hplace.len_ne hpdt hfmt htokens
      rw [heq]
      refine iff_of_true ?_ (Or.inl htype)
      refine .added hpdt (EdgeState.get_putPdt hpdt rfl) (EdgePdt.get_putFmt hfmt rfl) ?_ ?_ ?_
      · exact (insertToken_perm htokens).mem_iff.mpr (by simp)
      · change (pdt.attrMap.put attr).refs tokenTopic = pdt.attrMap.refs tokenTopic + 1
        rw [Registry.refs_put, ← href]
        exact if_pos hattr.symm
      · change (s.gAttrMap.put eattr).refs tokenTopic = s.gAttrMap.refs tokenTopic + 1
        rw [Registry.refs_put, ← heref]
        exact if_pos heattr.symm
  · rw [addG1Token_of_no_place]
    · exact iff_of_true .refused (Or.inr hplace)
    · intro htopic htoken hlen pdt fmt hpdt hfmt
      rw [← Option.not_isSome_iff_eq_none, isSome_insertToken_iff]
      intro hgap
      exact hplace ⟨htopic, htoken, hlen, pdt, fmt, hpdt, hfmt, hgap⟩

/-- A product, and a format without tokens. -/
def emptyFormatRun : List Command :=
  [.addProduct 5 1, .addPacketFormat (Buf.ofBytes []) 0 5 7 10 0 0]

/-- A token of the type 2, which is none, is returned and not counted. -/
theorem addG1Token_returns_freed_token :
    ¬ ∀ (env : Env) (mac : List UInt8) (clock : ℕ → ℕ) (cs : List Command) (s : EdgeState),
      run (EdgeState.step env) (EdgeState.init mac clock) (cs.map Event.command) = some s →
        ∀ (topic key tokenTopic type : UInt32) (offset len : ℕ),
          s.AddedOrRefused topic key ⟨tokenTopic, offset, len⟩
            (addG1Token s topic key tokenTopic type offset len) := by
  intro h
  have heval : ((run (EdgeState.step Env.plain) (EdgeState.init [] fun _ => 0)
      (emptyFormatRun.map Event.command)).map fun s =>
        ((addG1Token s 5 7 1 2 0 1).1.isSome, (addG1Token s 5 7 1 2 0 1).2.gAttrMap.refs 1)) =
      some (true, 0) := by
    decide +kernel
  obtain ⟨s, hrun, heq⟩ := Option.map_eq_some_iff.mp heval
  obtain ⟨hsome, hrefs⟩ := Prod.mk.inj heq
  have hadd := h Env.plain [] (fun _ => 0) emptyFormatRun s hrun 5 7 1 2 0 1
  generalize addG1Token s 5 7 1 2 0 1 = r at hadd hsome hrefs
  cases hadd with
  | added _ _ _ _ _ hglobal =>
      have hpos : 0 = s.gAttrMap.refs 1 + 1 := hrefs.symm.trans hglobal
      omega
  | refused => cases hsome

/-! ## `del_g1_token` -/

/-- What `del_g1_token` should come to: if the format has a token of the topic,
one such token is taken out and there is one reference less to the topic;
otherwise nothing is changed. -/
structure EdgeState.DeletedOrUnchanged (s : EdgeState) (topic key tokenTopic : UInt32)
    (s' : EdgeState) : Prop where
  deleted : ∀ pdt fmt, s.gPdtMap.get topic = some pdt → pdt.fmtMap.get key = some fmt →
    (∃ token ∈ fmt.token, token.topic = tokenTopic) →
    ∃ pdt' fmt' token front back, s'.gPdtMap.get topic = some pdt' ∧
      pdt'.fmtMap.get key = some fmt' ∧ token.topic = tokenTopic ∧
      fmt.token = front ++ token :: back ∧ fmt'.token = front ++ back ∧
      pdt.refs tokenTopic = pdt'.refs tokenTopic + 1 ∧
      s.gAttrMap.refs tokenTopic = s'.gAttrMap.refs tokenTopic + 1
  unchanged : (∀ pdt fmt, s.gPdtMap.get topic = some pdt → pdt.fmtMap.get key = some fmt →
    ¬ ∃ token ∈ fmt.token, token.topic = tokenTopic) → s' = s

/-- If there is such a format, it has a token of the topic precisely if the
product has an attribute of it. -/
def EdgeState.TokenIffAttr (s : EdgeState) (topic key tokenTopic : UInt32) : Prop :=
  topic ≠ 0 → tokenTopic ≠ 0 → ∀ pdt fmt, s.gPdtMap.get topic = some pdt →
    pdt.fmtMap.get key = some fmt →
    ((∃ token ∈ fmt.token, token.topic = tokenTopic) ↔ (pdt.attrMap.get tokenTopic).isSome)

/-- The first token of a topic is taken out. -/
theorem exists_of_delG1TokenInternal {fmt : G1Fmt} {tokenTopic : UInt32}
    (h : ∃ token ∈ fmt.token, token.topic = tokenTopic) :
    ∃ token front back, token.topic = tokenTopic ∧ fmt.token = front ++ token :: back ∧
      (delG1TokenInternal fmt tokenTopic).token = front ++ back := by
  obtain ⟨cur, hmem, htopic⟩ := h
  obtain ⟨token, front, back, _, htoken, hsplit, herase⟩ :=
    List.exists_of_eraseP (p := fun token => decide (tokenTopic = token.topic)) hmem
      (decide_eq_true htopic.symm)
  exact ⟨token, front, back, (of_decide_eq_true htoken).symm, hsplit, herase⟩

theorem delG1TokenInternal_of_none {fmt : G1Fmt} {tokenTopic : UInt32}
    (h : ¬ ∃ token ∈ fmt.token, token.topic = tokenTopic) :
    delG1TokenInternal fmt tokenTopic = fmt := by
  have herase : fmt.token.eraseP (fun token => decide (tokenTopic = token.topic)) = fmt.token := by
    refine List.eraseP_of_forall_not fun token hmem => ?_
    rw [decide_eq_true_eq]
    exact fun htopic => h ⟨token, hmem, htopic.symm⟩
  rw [delG1TokenInternal, herase]

/-- A product without the attribute has nothing to give back. -/
theorem delPdtAttr_of_none {pdt : EdgePdt} {topic : UInt32}
    (h : pdt.attrMap.get topic = none) (g : Registry UInt32 EdgeAttr) :
    delPdtAttr pdt g topic = (pdt, g) := by
  simp [delPdtAttr, h]

/-- The reference is given back to both maps if the product has one. -/
theorem refs_delG1Token {s : EdgeState} {topic key tokenTopic : UInt32} {pdt : EdgePdt}
    {fmt : G1Fmt} (hheld : s.AttrsHeld) (hpdt : s.gPdtMap.get topic = some pdt)
    (hdel : delG1Token s topic key tokenTopic =
      s.putPdt ((delPdtAttr pdt s.gAttrMap tokenTopic).1.putFmt
        (delG1TokenInternal fmt tokenTopic)) (delPdtAttr pdt s.gAttrMap tokenTopic).2) :
    ∃ pdt', (delG1Token s topic key tokenTopic).gPdtMap.get topic = some pdt' ∧
      pdt'.fmtMap = pdt.fmtMap.put (delG1TokenInternal fmt tokenTopic) ∧
      pdt'.refs tokenTopic = pdt.refs tokenTopic - 1 ∧
      (delG1Token s topic key tokenTopic).gAttrMap.refs tokenTopic =
        s.gAttrMap.refs tokenTopic - if 0 < pdt.refs tokenTopic then 1 else 0 := by
  have hrefs := refs_delPdtAttr (hheld.2 topic pdt hpdt) s.gAttrMap tokenTopic tokenTopic
  have hglobal := refs_delPdtAttr_global (hheld.2 topic pdt hpdt) s.gAttrMap tokenTopic tokenTopic
  rw [if_pos rfl] at hrefs
  simp only [true_and] at hglobal
  have hfst := delPdtAttr_fst pdt s.gAttrMap tokenTopic
  rw [hdel]
  refine ⟨_, EdgeState.get_putPdt hpdt ?_, ?_, hrefs, hglobal⟩
  · rw [hfst]
    rfl
  · rw [hfst]
    rfl

theorem EdgeState.tokenIffAttr_iff {s : EdgeState} {topic key tokenTopic : UInt32}
    {pdt : EdgePdt} {fmt : G1Fmt} (htopic : topic ≠ 0) (htoken : tokenTopic ≠ 0)
    (hpdt : s.gPdtMap.get topic = some pdt) (hfmt : pdt.fmtMap.get key = some fmt) :
    s.TokenIffAttr topic key tokenTopic ↔
      ((∃ token ∈ fmt.token, token.topic = tokenTopic) ↔
        (pdt.attrMap.get tokenTopic).isSome) := by
  constructor
  · intro h
    exact h htopic htoken pdt fmt hpdt hfmt
  · intro h _ _
    exact EdgeState.forall_fmt hpdt hfmt h

/-- In a state whose references are held and covered, and whose tokens are
proper, the call does what it should precisely under this condition. -/
theorem deletedOrUnchanged_iff {s : EdgeState} (hheld : s.AttrsHeld) (hcov : s.RefsCovered)
    (hvalid : s.EachFmt fun topic fmt => ∀ token ∈ fmt.token, token.Valid topic)
    (topic key tokenTopic : UInt32) :
    s.DeletedOrUnchanged topic key tokenTopic (delG1Token s topic key tokenTopic) ↔
      s.TokenIffAttr topic key tokenTopic := by
  rcases delG1Token_cases s topic key tokenTopic with
    ⟨heq, hnone⟩ | ⟨pdt, fmt, htopic, htoken, hpdt, hfmt, hdel⟩
  · refine iff_of_true ⟨?_, fun _ => heq⟩ ?_
    · rintro pdt fmt hpdt hfmt ⟨token, hmem, rfl⟩
      have hkey : pdt.topic = topic := Registry.key_of_get hpdt
      have hv := hvalid topic pdt hpdt key fmt hfmt token hmem
      rw [hkey] at hv
      exact absurd hfmt (hnone hv.product hv.topic pdt fmt hpdt)
    · intro htopic htoken pdt fmt hpdt hfmt
      exact absurd hfmt (hnone htopic htoken pdt fmt hpdt)
  · obtain ⟨pdt', hget, hfmts, hrefs, hglobal⟩ := refs_delG1Token hheld hpdt hdel
    have hsome : (pdt.attrMap.get tokenTopic).isSome ↔ 0 < pdt.refs tokenTopic :=
      (hheld.2 topic pdt hpdt).isSome_iff
    rw [EdgeState.tokenIffAttr_iff htopic htoken hpdt hfmt, hsome]
    by_cases hhas : ∃ token ∈ fmt.token, token.topic = tokenTopic
    · constructor
      · intro h
        obtain ⟨pdt₁, _, _, _, _, hget₁, _, _, _, _, hrefs₁, _⟩ := h.deleted pdt fmt hpdt hfmt hhas
        obtain rfl := Option.some.inj (hget.symm.trans hget₁)
        exact iff_of_true hhas (by omega)
      · intro h
        have hpos := h.mp hhas
        have hle : pdt.refs tokenTopic ≤ s.gAttrMap.refs tokenTopic := hcov.covered hpdt tokenTopic
        rw [if_pos hpos] at hglobal
        refine ⟨?_, fun hno => absurd hhas (hno pdt fmt hpdt hfmt)⟩
        refine EdgeState.forall_fmt hpdt hfmt fun _ => ?_
        obtain ⟨token, front, back, htopic', hsplit, herase⟩ := exists_of_delG1TokenInternal hhas
        refine ⟨pdt', delG1TokenInternal fmt tokenTopic, token, front, back, hget, ?_, htopic',
          hsplit, herase, by omega, by omega⟩
        rw [hfmts]
        exact EdgePdt.get_putFmt hfmt rfl
    · constructor
      · intro h
        have hsame : delG1Token s topic key tokenTopic = s :=
          h.unchanged (EdgeState.forall_fmt hpdt hfmt hhas)
        rw [hsame, hpdt] at hget
        obtain rfl := Option.some.inj hget
        exact iff_of_false hhas (by omega)
      · intro h
        have hnone : pdt.attrMap.get tokenTopic = none := by
          rw [← Option.not_isSome_iff_eq_none, hsome, ← h]
          exact hhas
        refine ⟨EdgeState.forall_fmt hpdt hfmt fun hhas₁ => ?_, fun _ => ?_⟩
        · exact absurd hhas₁ hhas
        · rw [hdel, delPdtAttr_of_none hnone, delG1TokenInternal_of_none hhas,
            EdgePdt.putFmt_self hfmt, EdgeState.putPdt_self hpdt]

/-- In every state of a run `del_g1_token` does what it should, precisely if the
format has a token of the topic just when the product has an attribute of it. -/
theorem deletedOrUnchanged_throughout_iff (env : Env) (mac : List UInt8) (clock : ℕ → ℕ)
    (es : List Event) :
    Throughout (EdgeState.step env)
      (fun s => ∀ topic key tokenTopic,
        s.DeletedOrUnchanged topic key tokenTopic (delG1Token s topic key tokenTopic) ↔
          s.TokenIffAttr topic key tokenTopic) (EdgeState.init mac clock) es := by
  intro fs _ s hrun topic key tokenTopic
  obtain ⟨hheld, hcov⟩ := (kept_refsCovered env).run
    ⟨attrsHeld_init mac clock, refsCovered_init mac clock⟩ hrun
  have hvalid := (fmtKept_valid.kept env).run (EdgeState.eachFmt_init _ mac clock) hrun
  exact deletedOrUnchanged_iff hheld hcov hvalid topic key tokenTopic

/-- Two formats of a product, and a token in the first. -/
def twoFormatsRun : List Command :=
  [.addProduct 5 1, .addPacketFormat (Buf.ofBytes []) 0 5 7 10 0 0, .addFormatToken 5 7 1 0 0 1,
    .addPacketFormat (Buf.ofBytes []) 0 5 8 10 0 0]

/-- Deleting the token in the other format gives back the reference of the first. -/
theorem delG1Token_releases_without_token :
    ¬ ∀ (env : Env) (mac : List UInt8) (clock : ℕ → ℕ) (cs : List Command) (s : EdgeState),
      run (EdgeState.step env) (EdgeState.init mac clock) (cs.map Event.command) = some s →
        ∀ topic key tokenTopic,
          s.DeletedOrUnchanged topic key tokenTopic (delG1Token s topic key tokenTopic) := by
  intro h
  have heval : ((run (EdgeState.step Env.plain) (EdgeState.init [] fun _ => 0)
      (twoFormatsRun.map Event.command)).bind fun s =>
        (s.getG1FmtPdt 5 8).map fun found =>
          (found.2.token.length, s.gAttrMap.refs 1,
            (delG1Token s 5 8 1).gAttrMap.refs 1)) = some (0, 1, 0) := by
    decide +kernel
  obtain ⟨s, hrun, hfind⟩ := Option.bind_eq_some_iff.mp heval
  obtain ⟨⟨pdt, fmt⟩, hget, heq⟩ := Option.map_eq_some_iff.mp hfind
  obtain ⟨hpdt, hfmt⟩ := EdgeState.getG1FmtPdt_eq_some_iff.mp hget
  obtain ⟨hlength, hrest⟩ := Prod.mk.inj heq
  obtain ⟨hbefore, hafter⟩ := Prod.mk.inj hrest
  have hempty : fmt.token = [] := List.eq_nil_of_length_eq_zero hlength
  have hsame : delG1Token s 5 8 1 = s := by
    refine (h Env.plain [] (fun _ => 0) twoFormatsRun s hrun 5 8 1).unchanged ?_
    refine EdgeState.forall_fmt hpdt hfmt ?_
    simp [hempty]
  rw [hsame, hbefore] at hafter
  cases hafter

end EceLib
