import EceLib.Edge.References

/-!
# References of a product and tokens of its formats

A product is meant to hold an attribute exactly as long as one of its tokens
extracts it.  Two commands break this: adding a format under a key whose format
still has tokens drops these tokens but not their references, and deleting a
token that the format does not have gives back a reference of another one.  The
result of the module is that there is no third way.
-/

namespace EceLib

open Support

namespace EdgeState

/-- Every product has an attribute for exactly the topics of its tokens, and
counts these. -/
def TokenRefs (s : EdgeState) : Prop :=
  ∀ topic pdt, s.gPdtMap.get topic = some pdt → ∀ t,
    ((pdt.attrMap.get t).isSome ↔
      ∃ key fmt, pdt.fmtMap.get key = some fmt ∧ ∃ token ∈ fmt.token, token.topic = t) ∧
    ∀ attr, pdt.attrMap.get t = some attr → attr.ref = pdt.tokenCount t

end EdgeState

/-- The commands that keep the references right: a format may be replaced when
it has no tokens, and a token deleted when the format has it or when there is no
reference to give back. -/
def KeepsTokenRefs (s : EdgeState) : Command → Prop
  | .addPacketFormat _ _ topic key _ _ _ =>
      ∀ pdt fmt, s.gPdtMap.get topic = some pdt → pdt.fmtMap.get key = some fmt →
        fmt.token = []
  | .delFormatToken topic key tokenTopic =>
      topic ≠ 0 → tokenTopic ≠ 0 →
        ∀ pdt fmt, s.gPdtMap.get topic = some pdt → pdt.fmtMap.get key = some fmt →
          pdt.attrMap.get tokenTopic = none ∨ ∃ token ∈ fmt.token, token.topic = tokenTopic
  | _ => True

/-! ## The invariant in terms of counts -/

/-- The two counts of a product agree. -/
def EdgePdt.CountsAgree (pdt : EdgePdt) : Prop := ∀ t, pdt.refs t = pdt.tokenCount t

theorem EdgePdt.countsAgree_iff {pdt : EdgePdt} (h : pdt.attrMap.Held) :
    pdt.CountsAgree ↔ ∀ t,
      ((pdt.attrMap.get t).isSome ↔
        ∃ key fmt, pdt.fmtMap.get key = some fmt ∧ ∃ token ∈ fmt.token, token.topic = t) ∧
      ∀ attr, pdt.attrMap.get t = some attr → attr.ref = pdt.tokenCount t := by
  refine h.forall_refs_eq_iff.trans (forall_congr' fun t => ?_)
  rw [tokenCount_pos_iff]
  rfl

namespace EdgeState

theorem tokenRefs_iff {s : EdgeState} (h : s.AttrsHeld) :
    s.TokenRefs ↔ ∀ topic pdt, s.gPdtMap.get topic = some pdt → pdt.CountsAgree := by
  refine forall_congr' fun topic => forall_congr' fun pdt => ?_
  constructor
  · intro hrefs hget
    exact (EdgePdt.countsAgree_iff (h.2 topic pdt hget)).mpr (hrefs hget)
  · intro hagree hget
    exact (EdgePdt.countsAgree_iff (h.2 topic pdt hget)).mp (hagree hget)

theorem TokenRefs.of_sameConfig {s s' : EdgeState} (hsame : SameConfig s s')
    (h : s.TokenRefs) : s'.TokenRefs := by
  intro topic pdt' hget
  obtain ⟨pdt, hpdt, hconfig⟩ := hsame.exists_get hget
  have hattr : pdt.attrMap = pdt'.attrMap := by
    simpa only [EdgePdt.config] using congrArg EdgePdt.attrMap hconfig
  have hfmt : pdt.fmtMap = pdt'.fmtMap := by
    simpa only [EdgePdt.config] using congrArg EdgePdt.fmtMap hconfig
  have hcount : pdt'.tokenCount = pdt.tokenCount := by
    unfold EdgePdt.tokenCount
    rw [hfmt]
  rw [hcount, ← hattr, ← hfmt]
  exact h topic pdt hpdt

end EdgeState

/-! ## Each command -/

/-- Replacing a format by one without tokens. -/
theorem EdgePdt.countsAgree_putFmt_iff {pdt : EdgePdt} (h : pdt.CountsAgree) {fmt : G1Fmt}
    (hempty : fmt.token = []) :
    (pdt.putFmt fmt).CountsAgree ↔
      ∀ old, pdt.fmtMap.get fmt.key = some old → old.token = [] := by
  have hrefs : ∀ t, (pdt.putFmt fmt).refs t = pdt.tokenCount t := h
  cases hget : pdt.fmtMap.get fmt.key with
  | none =>
      refine iff_of_true ?_ (by simp)
      intro t
      rw [hrefs, tokenCount_putFmt_of_none hget, hempty, topicCount_nil, Nat.add_zero]
  | some old =>
      simp only [Option.some.injEq, forall_eq']
      rw [← forall_topicCount_eq_zero_iff]
      refine forall_congr' fun t => ?_
      have hcount := tokenCount_putFmt pdt fmt hget rfl t
      rw [hempty, topicCount_nil] at hcount
      rw [hrefs]
      omega

/-- Giving back a reference and taking out a token of the same topic. -/
theorem EdgePdt.countsAgree_delToken_iff {pdt : EdgePdt} (hheld : pdt.attrMap.Held)
    (h : pdt.CountsAgree) (g : Registry UInt32 EdgeAttr) {key tokenTopic : UInt32} {fmt : G1Fmt}
    (hget : pdt.fmtMap.get key = some fmt) :
    ((delPdtAttr pdt g tokenTopic).1.putFmt (delG1TokenInternal fmt tokenTopic)).CountsAgree ↔
      pdt.attrMap.get tokenTopic = none ∨ ∃ token ∈ fmt.token, token.topic = tokenTopic := by
  have hkey : fmt.key = key := Registry.key_of_get hget
  have hfst := delPdtAttr_fst pdt g tokenTopic
  have hcount : ∀ t, ((delPdtAttr pdt g tokenTopic).1.putFmt
      (delG1TokenInternal fmt tokenTopic)).tokenCount t + topicCount fmt.token t =
      pdt.tokenCount t + topicCount (delG1TokenInternal fmt tokenTopic).token t := by
    intro t
    rw [hfst]
    exact tokenCount_putFmt { pdt with attrMap := (delPdtAttr pdt g tokenTopic).1.attrMap }
      (delG1TokenInternal fmt tokenTopic) hget hkey t
  have hrefs : ∀ t, ((delPdtAttr pdt g tokenTopic).1.putFmt
      (delG1TokenInternal fmt tokenTopic)).refs t =
      pdt.tokenCount t - if t = tokenTopic then 1 else 0 := by
    intro t
    rw [← h t]
    exact refs_delPdtAttr hheld g tokenTopic t
  have herase : ∀ t, topicCount (delG1TokenInternal fmt tokenTopic).token t =
      topicCount fmt.token t - if t = tokenTopic then 1 else 0 :=
    topicCount_eraseP fmt.token tokenTopic
  have hle : topicCount fmt.token tokenTopic ≤ pdt.tokenCount tokenTopic :=
    Registry.le_total hget fun fmt => topicCount fmt.token tokenTopic
  have hnone : pdt.attrMap.get tokenTopic = none ↔ pdt.tokenCount tokenTopic = 0 := by
    rw [hheld.get_eq_none_iff, ← h tokenTopic]
    rfl
  have hmem : topicCount fmt.token tokenTopic = 0 ↔
      ¬ ∃ token ∈ fmt.token, token.topic = tokenTopic := topicCount_eq_zero_iff
  rw [hnone]
  constructor
  · intro hagree
    by_contra hcontra
    have hagree' := hagree tokenTopic
    have hc := hcount tokenTopic
    have he := herase tokenTopic
    rw [hrefs] at hagree'
    simp only [if_true] at hagree' he
    have hzero := hmem.mpr fun hex => hcontra (Or.inr hex)
    have hpos : pdt.tokenCount tokenTopic ≠ 0 := fun h0 => hcontra (Or.inl h0)
    omega
  · intro hcond t
    have hc := hcount t
    have he := herase t
    rw [hrefs]
    by_cases ht : t = tokenTopic
    · subst ht
      simp only [if_true] at he ⊢
      rcases hcond with h0 | hex
      · omega
      · have hne : topicCount fmt.token t ≠ 0 := fun h0 => hmem.mp h0 hex
        omega
    · simp only [ht, if_false] at he ⊢
      omega

/-- Adding a token and a reference. -/
theorem EdgePdt.countsAgree_addToken {pdt : EdgePdt} (h : pdt.CountsAgree)
    {key : UInt32} {fmt : G1Fmt} (hget : pdt.fmtMap.get key = some fmt)
    {token : G1Token} {tokens : List G1Token} {attr : PdtAttr}
    (hperm : tokens.Perm (token :: fmt.token)) (htopic : attr.topic = token.topic)
    (href : attr.ref = pdt.attrMap.refs token.topic + 1) :
    EdgePdt.CountsAgree
      { pdt.putFmt { fmt with token := tokens } with attrMap := pdt.attrMap.put attr } := by
  intro t
  have hkey : fmt.key = key := Registry.key_of_get hget
  have hcount := tokenCount_putFmt pdt { fmt with token := tokens } hget hkey t
  have hagree : pdt.attrMap.refs t = pdt.tokenCount t := h t
  have hnew : topicCount tokens t =
      topicCount fmt.token t + if t = token.topic then 1 else 0 := by
    rw [topicCount_perm hperm, topicCount_cons]
  change (pdt.attrMap.put attr).refs t = (pdt.putFmt { fmt with token := tokens }).tokenCount t
  rw [Registry.refs_put]
  change (if t = attr.topic then attr.ref else pdt.attrMap.refs t) = _
  rw [htopic]
  change _ + topicCount fmt.token t = _ + topicCount tokens t at hcount
  by_cases ht : t = token.topic
  · subst ht
    simp only [if_true] at hnew ⊢
    omega
  · simp only [ht, if_false] at hnew ⊢
    omega

/-- Deleting a format and a reference for each of its tokens. -/
theorem EdgePdt.countsAgree_delFmt {pdt : EdgePdt} (hheld : pdt.attrMap.Held)
    (h : pdt.CountsAgree) (g : Registry UInt32 EdgeAttr) {key : UInt32} {fmt : G1Fmt}
    (hget : pdt.fmtMap.get key = some fmt) : (delG1FmtInternal pdt g fmt).1.CountsAgree := by
  intro t
  have hcount := tokenCount_delG1FmtInternal hget g t
  rw [(released_delG1FmtInternal hheld g fmt).refs, h t]
  omega

/-! ## Two of the commands -/

/-- A format that is replaced must not have a token. -/
theorem tokenRefs_addG1Fmt_iff {s s' : EdgeState} {pkt : Buf}
    {pktLen topic key size offset len : UInt32} (hK : s.AttrsHeld) (hK' : s'.AttrsHeld)
    (hI : s.TokenRefs)
    (hexec : ((Command.addPacketFormat pkt pktLen topic key size offset len).exec s).val =
      some s') :
    s'.TokenRefs ↔ KeepsTokenRefs s (.addPacketFormat pkt pktLen topic key size offset len) := by
  have hagree := (EdgeState.tokenRefs_iff hK).mp hI
  rcases addG1Fmt_cases hexec with ⟨hnone, rfl⟩ | ⟨pdt, hget, _, rfl⟩
  · refine iff_of_true hI ?_
    intro pdt fmt hget
    rw [hnone] at hget
    cases hget
  · rw [EdgeState.tokenRefs_iff hK']
    refine (EdgeState.forall_putPdt_iff hagree).trans ?_
    rw [EdgePdt.countsAgree_putFmt_iff (hagree topic pdt hget) rfl]
    constructor
    · intro hold pdt' fmt hget' hfmt
      obtain rfl := Option.some.inj (hget.symm.trans hget')
      exact hold fmt hfmt
    · intro hC old hold
      exact hC pdt old hget hold

/-- A reference is only given back together with a token. -/
theorem tokenRefs_delG1Token_iff {s : EdgeState} {topic key tokenTopic : UInt32}
    (hK : s.AttrsHeld) (hK' : (delG1Token s topic key tokenTopic).AttrsHeld)
    (hI : s.TokenRefs) :
    (delG1Token s topic key tokenTopic).TokenRefs ↔
      KeepsTokenRefs s (.delFormatToken topic key tokenTopic) := by
  have hagree := (EdgeState.tokenRefs_iff hK).mp hI
  rcases delG1Token_cases s topic key tokenTopic with
    ⟨heq, hnone⟩ | ⟨pdt, fmt, htopic, htokenTopic, hget, hfmt, heq⟩
  · refine iff_of_true (heq.symm ▸ hI) fun htopic htokenTopic pdt fmt hget hfmt => ?_
    exact absurd hfmt (hnone htopic htokenTopic pdt fmt hget)
  · rw [EdgeState.tokenRefs_iff hK', heq]
    refine (EdgeState.forall_putPdt_iff hagree).trans ?_
    rw [EdgePdt.countsAgree_delToken_iff (hK.2 topic pdt hget) (hagree topic pdt hget) _ hfmt]
    constructor
    · intro hcond _ _
      exact EdgeState.forall_fmt hget hfmt hcond
    · intro hC
      exact hC htopic htokenTopic pdt fmt hget hfmt

/-! ## Runs -/

theorem keptIff_tokenRefs (env : Env) :
    KeptIff env EdgeState.AttrsHeld EdgeState.TokenRefs KeepsTokenRefs := by
  refine keptIff_of_sameConfig EdgeState.TokenRefs.of_sameConfig ?_ ?_
  · intro s c s' hK hI hexec
    have hK' : s'.AttrsHeld := (kept_attrsHeld env).command hK hexec
    have hagree := (EdgeState.tokenRefs_iff hK).mp hI
    cases c with
    | addProduct topic endian =>
        cases hexec
        refine iff_of_true ?_ trivial
        rcases addPdt_cases s topic endian with ⟨heq, _⟩ | ⟨pdt, _, _, _, _, hattr, hfmt, heq⟩
        · exact heq.symm ▸ hI
        · refine (EdgeState.tokenRefs_iff hK').mpr ?_
          rw [heq]
          refine (EdgeState.forall_putPdt_iff (g := s.gAttrMap) hagree).mpr fun t => ?_
          simp [EdgePdt.refs, EdgePdt.tokenCount, hattr, hfmt]
    | delProduct topic =>
        cases hexec
        refine iff_of_true ?_ trivial
        rcases delPdt_cases s topic with ⟨heq, _⟩ | ⟨pdt, _, heq⟩
        · exact heq.symm ▸ hI
        · rw [heq]
          exact Registry.forall_remove hI
    | addPacketFormat pkt pktLen topic key size offset len =>
        exact tokenRefs_addG1Fmt_iff hK hK' hI hexec
    | delPacketFormat topic key =>
        cases hexec
        refine iff_of_true ?_ trivial
        rcases delG1Fmt_cases s topic key with heq | ⟨pdt, fmt, hget, hfmt, heq⟩
        · exact heq.symm ▸ hI
        · refine (EdgeState.tokenRefs_iff hK').mpr ?_
          rw [heq]
          exact (EdgeState.forall_putPdt_iff hagree).mpr
            (EdgePdt.countsAgree_delFmt (hK.2 topic pdt hget) (hagree topic pdt hget) _ hfmt)
    | addFormatToken topic key tokenTopic type offset len =>
        cases hexec
        refine iff_of_true ?_ trivial
        rcases addG1Token_cases s topic key tokenTopic type offset.toNat len.toNat with
          heq | ⟨pdt, fmt, tokens, attr, eattr, hget, hfmt, _, _, _, _, htokens, hattr, href, _, _,
            heq⟩
        · exact heq.symm ▸ hI
        · refine (EdgeState.tokenRefs_iff hK').mpr ?_
          rw [heq]
          exact (EdgeState.forall_putPdt_iff hagree).mpr
            (EdgePdt.countsAgree_addToken (hagree topic pdt hget) hfmt (insertToken_perm htokens)
              hattr href)
    | delFormatToken topic key tokenTopic =>
        cases hexec
        exact tokenRefs_delG1Token_iff hK hK' hI
    | addDevice addr len linkType module topic =>
        exact iff_of_true (hI.of_sameConfig (EdgeState.sameConfig_addDevice hexec)) trivial
    | delDevice addr len linkType =>
        exact iff_of_true (hI.of_sameConfig (EdgeState.sameConfig_delDevice hexec)) trivial
  · intro s c stat
    cases c <;> exact Iff.rfl

theorem tokenRefs_init (mac : List UInt8) (clock : ℕ → ℕ) :
    (EdgeState.init mac clock).TokenRefs := by
  intro topic pdt h
  simp [EdgeState.init] at h

/-- In a run from the initial state the references of the products are those of
their tokens throughout, precisely when every command of the run keeps them. -/
theorem tokenRefs_throughout_iff (env : Env) (mac : List UInt8) (clock : ℕ → ℕ)
    (es : List Event) :
    Throughout (EdgeState.step env) EdgeState.TokenRefs (EdgeState.init mac clock) es ↔
      StepsMeet (EdgeState.step env) (fun s e => e.Meets KeepsTokenRefs s)
        (EdgeState.init mac clock) es :=
  (keptIff_tokenRefs env).throughout_iff (kept_attrsHeld env) (attrsHeld_init mac clock)
    (tokenRefs_init mac clock) es

/-- A product and a format with one token, and the format added once more. -/
def replaceFormatRun : List Command :=
  let pkt := Buf.ofBytes (List.replicate mgtPktSize 0)
  [.addProduct 5 1, .addPacketFormat pkt 5 5 7 10 1 3, .addFormatToken 5 7 1 0 0 1,
    .addPacketFormat pkt 5 5 7 10 1 3]

/-- The token is gone with the format, its reference is not. -/
theorem tokenRefs_fails_of_replaced_format :
    ¬ ∀ (env : Env) (mac : List UInt8) (clock : ℕ → ℕ) (cs : List Command) (s : EdgeState),
      run (EdgeState.step env) (EdgeState.init mac clock) (cs.map Event.command) = some s →
        s.TokenRefs := by
  intro h
  have heval : ((run (EdgeState.step Env.plain) (EdgeState.init [] fun _ => 0)
      (replaceFormatRun.map Event.command)).bind fun s =>
        (s.gPdtMap.get 5).map fun pdt => ((pdt.attrMap.get 1).isSome, pdt.tokenCount 1)) =
      some (true, 0) := by
    decide +kernel
  obtain ⟨s, hrun, hpdt⟩ := Option.bind_eq_some_iff.mp heval
  obtain ⟨pdt, hget, hcounts⟩ := Option.map_eq_some_iff.mp hpdt
  obtain ⟨hattr, hcount⟩ := Prod.mk.inj hcounts
  have hrefs := (h Env.plain [] (fun _ => 0) replaceFormatRun s hrun 5 pdt hget 1).1
  have hpos := EdgePdt.tokenCount_pos_iff.mpr (hrefs.mp hattr)
  omega

end EceLib
