import EceLib.Edge.Config

/-!
# Properties of all formats

Only four things happen to a format: it is added without tokens, it gets a
token, it loses one, and it is deleted.  A property of the formats is kept by
every event as soon as a new format has it and the two calls on tokens keep it.
-/

namespace EceLib

open Support

/-- Every format of the product has `P`. -/
def EdgePdt.EachFmt (P : UInt32 → G1Fmt → Prop) (pdt : EdgePdt) : Prop :=
  ∀ key fmt, pdt.fmtMap.get key = some fmt → P pdt.topic fmt

/-- Every format of every product has `P`, which may look at the topic of the
product. -/
def EdgeState.EachFmt (P : UInt32 → G1Fmt → Prop) (s : EdgeState) : Prop :=
  ∀ topic pdt, s.gPdtMap.get topic = some pdt → pdt.EachFmt P

/-- A call of `add_g1_token` for which a place is searched in a format meets
the condition `C` on the format and the new token. -/
def OnAddToken (C : G1Fmt → G1Token → Prop) (s : EdgeState) : Command → Prop
  | .addFormatToken topic key tokenTopic type offset len =>
      topic ≠ 0 → tokenTopic ≠ 0 → EdgeAttrType.ofCode type ≠ none → len ≠ 0 →
        ∀ pdt fmt, s.gPdtMap.get topic = some pdt → pdt.fmtMap.get key = some fmt →
          C fmt ⟨tokenTopic, offset.toNat, len.toNat⟩
  | _ => True

/-- In formats with `K`, a new token keeps `P` precisely when it meets `C`. -/
structure FmtKeptIff (K P : UInt32 → G1Fmt → Prop) (C : G1Fmt → G1Token → Prop) : Prop where
  fresh : ∀ topic key size pkt pktLen offset len,
    P topic (freshG1Fmt key size pkt pktLen offset len)
  add : ∀ {topic fmt token}, topic ≠ 0 → token.topic ≠ 0 → token.len ≠ 0 → K topic fmt →
    P topic fmt →
    ((∀ tokens, insertToken fmt.size token 0 0 fmt.token = some tokens →
      P topic { fmt with token := tokens }) ↔ C fmt token)
  del : ∀ {topic fmt} (tokenTopic : UInt32), P topic fmt →
    P topic (delG1TokenInternal fmt tokenTopic)

/-- A new token always keeps `P`. -/
structure FmtKept (P : UInt32 → G1Fmt → Prop) : Prop where
  fresh : ∀ topic key size pkt pktLen offset len,
    P topic (freshG1Fmt key size pkt pktLen offset len)
  add : ∀ {topic fmt token tokens}, topic ≠ 0 → token.topic ≠ 0 → token.len ≠ 0 →
    P topic fmt → insertToken fmt.size token 0 0 fmt.token = some tokens →
      P topic { fmt with token := tokens }
  del : ∀ {topic fmt} (tokenTopic : UInt32), P topic fmt →
    P topic (delG1TokenInternal fmt tokenTopic)

/-! ## What happens to the formats -/

theorem EdgePdt.eachFmt_putFmt_iff {P : UInt32 → G1Fmt → Prop} {pdt : EdgePdt}
    (h : pdt.EachFmt P) (fmt : G1Fmt) : (pdt.putFmt fmt).EachFmt P ↔ P pdt.topic fmt :=
  Registry.forall_put_iff h fmt

/-- The attributes of a product do not matter. -/
theorem EdgePdt.eachFmt_attrMap {P : UInt32 → G1Fmt → Prop} {pdt : EdgePdt}
    {attrMap : Registry UInt32 PdtAttr} :
    ({ pdt with attrMap := attrMap } : EdgePdt).EachFmt P ↔ pdt.EachFmt P := Iff.rfl

namespace EdgeState

theorem EachFmt.of_sameConfig {P : UInt32 → G1Fmt → Prop} {s s' : EdgeState}
    (hsame : SameConfig s s') (h : s.EachFmt P) : s'.EachFmt P := by
  intro topic pdt' hget
  obtain ⟨pdt, hpdt, hconfig⟩ := hsame.exists_get hget
  have hfmts : pdt.fmtMap = pdt'.fmtMap := by
    simpa only [EdgePdt.config] using congrArg EdgePdt.fmtMap hconfig
  have htopic : pdt.topic = pdt'.topic := by
    simpa only [EdgePdt.config] using congrArg EdgePdt.topic hconfig
  intro key fmt hfmt
  exact htopic ▸ h topic pdt hpdt key fmt (hfmts ▸ hfmt)

theorem eachFmt_init (P : UInt32 → G1Fmt → Prop) (mac : List UInt8) (clock : ℕ → ℕ) :
    (init mac clock).EachFmt P := by
  intro topic pdt h
  simp [init] at h

theorem EachFmt.of_getG1Fmt {P : UInt32 → G1Fmt → Prop} {s : EdgeState} (h : s.EachFmt P)
    {topic key : UInt32} {fmt : G1Fmt} (hfmt : s.getG1Fmt topic key = some fmt) : P topic fmt := by
  unfold getG1Fmt at hfmt
  cases hpdt : s.getPdt topic with
  | none => simp [hpdt] at hfmt
  | some pdt =>
      rw [hpdt] at hfmt
      have htopic : pdt.topic = topic := Registry.key_of_get hpdt
      exact htopic ▸ h topic pdt hpdt key fmt hfmt

/-- A format of a product is changed in place. -/
theorem eachFmt_putFmt_iff {P : UInt32 → G1Fmt → Prop} {s : EdgeState} (h : s.EachFmt P)
    {topic : UInt32} {pdt : EdgePdt} (hget : s.gPdtMap.get topic = some pdt) (fmt : G1Fmt)
    (attrMap : Registry UInt32 PdtAttr) (g : Registry UInt32 EdgeAttr) :
    (s.putPdt { pdt.putFmt fmt with attrMap := attrMap } g).EachFmt P ↔ P topic fmt := by
  have htopic : pdt.topic = topic := Registry.key_of_get hget
  refine (forall_putPdt_iff h).trans ?_
  rw [EdgePdt.eachFmt_attrMap, EdgePdt.eachFmt_putFmt_iff (h topic pdt hget), htopic]

end EdgeState

/-- Whether a token may be added is up to the format it is added to. -/
theorem onAddToken_iff {C : G1Fmt → G1Token → Prop} {s : EdgeState}
    {topic key tokenTopic type offset len : UInt32} {pdt : EdgePdt} {fmt : G1Fmt}
    (htopic : topic ≠ 0) (htoken : tokenTopic ≠ 0) (htype : EdgeAttrType.ofCode type ≠ none)
    (hlen : len ≠ 0) (hget : s.gPdtMap.get topic = some pdt)
    (hfmt : pdt.fmtMap.get key = some fmt) :
    OnAddToken C s (.addFormatToken topic key tokenTopic type offset len) ↔
      C fmt ⟨tokenTopic, offset.toNat, len.toNat⟩ := by
  constructor
  · intro hC
    exact hC htopic htoken htype hlen pdt fmt hget hfmt
  · intro hC _ _ _ _
    exact EdgeState.forall_fmt hget hfmt hC

section Tokens

variable {K P : UInt32 → G1Fmt → Prop} {C : G1Fmt → G1Token → Prop}
  (hadd : ∀ {topic fmt token}, topic ≠ 0 → token.topic ≠ 0 → token.len ≠ 0 → K topic fmt →
    P topic fmt →
    ((∀ tokens, insertToken fmt.size token 0 0 fmt.token = some tokens →
      P topic { fmt with token := tokens }) ↔ C fmt token))

include hadd

theorem eachFmt_addG1Token_iff {s : EdgeState} (hK : s.EachFmt K) (hI : s.EachFmt P)
    (topic key tokenTopic type offset len : UInt32) :
    (addG1Token s topic key tokenTopic type offset.toNat len.toNat).2.EachFmt P ↔
      OnAddToken C s (.addFormatToken topic key tokenTopic type offset len) := by
  have hnat : len.toNat ≠ 0 ↔ len ≠ 0 := not_congr (by rw [← UInt32.toNat_inj]; rfl)
  by_cases hcall : topic ≠ 0 ∧ tokenTopic ≠ 0 ∧ EdgeAttrType.ofCode type ≠ none ∧ len ≠ 0 ∧
      ∃ pdt fmt, s.gPdtMap.get topic = some pdt ∧ pdt.fmtMap.get key = some fmt
  · obtain ⟨htopic, htoken, htype, hlen, pdt, fmt, hget, hfmt⟩ := hcall
    have hkey : pdt.topic = topic := Registry.key_of_get hget
    have htopic₁ : G1Token.topic ⟨tokenTopic, offset.toNat, len.toNat⟩ ≠ 0 := htoken
    have hlen₁ : G1Token.len ⟨tokenTopic, offset.toNat, len.toNat⟩ ≠ 0 := hnat.mpr hlen
    have hplaces := hadd htopic htopic₁ hlen₁ (hkey ▸ hK topic pdt hget key fmt hfmt)
      (hkey ▸ hI topic pdt hget key fmt hfmt)
    rw [onAddToken_iff htopic htoken htype hlen hget hfmt, ← hplaces]
    cases hplace : insertToken fmt.size ⟨tokenTopic, offset.toNat, len.toNat⟩ 0 0
        fmt.token with
    | none =>
        rw [addG1Token_of_no_place]
        · exact iff_of_true hI (by simp)
        · intro _ _ _
          exact EdgeState.forall_fmt hget hfmt hplace
    | some tokens =>
        obtain ⟨attr, eattr, _, _, _, _, heq⟩ :=
          addG1Token_of_insert htopic htoken htype (hnat.mpr hlen) hget hfmt hplace
        rw [heq, EdgeState.eachFmt_putFmt_iff hI hget]
        simp
  · refine iff_of_true ?_ ?_
    · rcases addG1Token_cases s topic key tokenTopic type offset.toNat len.toNat with
        heq | ⟨pdt, fmt, _, _, _, hget, hfmt, htopic, htoken, htype, hlen, _⟩
      · exact heq.symm ▸ hI
      · exact absurd ⟨htopic, htoken, htype, hnat.mp hlen, pdt, fmt, hget, hfmt⟩ hcall
    · intro htopic htoken htype hlen pdt fmt hget hfmt
      exact absurd ⟨htopic, htoken, htype, hlen, pdt, fmt, hget, hfmt⟩ hcall

/-! ## Each command -/

/-- The commands keep a property of all formats precisely when a token that is
added keeps it.  A new format has a template that fits. -/
theorem keptIff_eachFmt (env : Env)
    (hfresh : ∀ topic key size pkt pktLen offset len, pktLen ≤ fmtPktSize →
      P topic (freshG1Fmt key size pkt pktLen offset len))
    (hdel : ∀ {topic fmt} (tokenTopic : UInt32), P topic fmt →
      P topic (delG1TokenInternal fmt tokenTopic)) :
    KeptIff env (EdgeState.EachFmt K) (EdgeState.EachFmt P) (OnAddToken C) := by
  refine keptIff_of_sameConfig EdgeState.EachFmt.of_sameConfig ?_ ?_
  · intro s c s' hK hI hexec
    cases c with
    | addProduct topic endian =>
        cases hexec
        refine iff_of_true ?_ trivial
        rcases addPdt_cases s topic endian with ⟨heq, _⟩ | ⟨pdt, _, _, _, _, _, hfmts, heq⟩
        · exact heq.symm ▸ hI
        · rw [heq]
          refine (EdgeState.forall_putPdt_iff (g := s.gAttrMap) hI).mpr ?_
          intro key fmt hget
          simp [hfmts] at hget
    | delProduct topic =>
        cases hexec
        refine iff_of_true ?_ trivial
        rcases delPdt_cases s topic with ⟨heq, _⟩ | ⟨pdt, _, heq⟩
        · exact heq.symm ▸ hI
        · rw [heq]
          exact Registry.forall_remove hI
    | addPacketFormat pkt pktLen topic key size offset len =>
        refine iff_of_true ?_ trivial
        rcases addG1Fmt_cases hexec with ⟨_, rfl⟩ | ⟨pdt, hget, hlen, rfl⟩
        · exact hI
        · exact (EdgeState.eachFmt_putFmt_iff hI hget _ pdt.attrMap _).mpr
            (hfresh topic key size.toNat pkt pktLen.toNat offset.toNat len.toNat hlen)
    | delPacketFormat topic key =>
        cases hexec
        refine iff_of_true ?_ trivial
        rcases delG1Fmt_cases s topic key with heq | ⟨pdt, fmt, hget, _, heq⟩
        · exact heq.symm ▸ hI
        · obtain ⟨attrMap, hpdt⟩ := delG1FmtInternal_fst pdt s.gAttrMap fmt
          rw [heq, hpdt]
          exact (EdgeState.forall_putPdt_iff hI).mpr
            (Registry.forall_remove (P := fun fmt : G1Fmt => P pdt.topic fmt)
              (hI topic pdt hget))
    | addFormatToken topic key tokenTopic type offset len =>
        cases hexec
        exact eachFmt_addG1Token_iff hadd hK hI topic key tokenTopic type offset len
    | delFormatToken topic key tokenTopic =>
        cases hexec
        refine iff_of_true ?_ trivial
        rcases delG1Token_cases s topic key tokenTopic with
          ⟨heq, _⟩ | ⟨pdt, fmt, _, _, hget, hfmt, heq⟩
        · exact heq.symm ▸ hI
        · have hkey : pdt.topic = topic := Registry.key_of_get hget
          rw [heq, delPdtAttr_fst]
          exact (EdgeState.eachFmt_putFmt_iff hI hget _ _ _).mpr
            (hdel tokenTopic (hkey ▸ hI topic pdt hget key fmt hfmt))
    | addDevice addr len linkType module topic =>
        exact iff_of_true (hI.of_sameConfig (EdgeState.sameConfig_addDevice hexec)) trivial
    | delDevice addr len linkType =>
        exact iff_of_true (hI.of_sameConfig (EdgeState.sameConfig_delDevice hexec)) trivial
  · intro s c stat
    cases c <;> exact Iff.rfl

end Tokens

theorem FmtKeptIff.keptIff {K P : UInt32 → G1Fmt → Prop} {C : G1Fmt → G1Token → Prop}
    (h : FmtKeptIff K P C) (env : Env) :
    KeptIff env (EdgeState.EachFmt K) (EdgeState.EachFmt P) (OnAddToken C) :=
  keptIff_eachFmt h.add env
    (fun topic key size pkt pktLen offset len _ => h.fresh topic key size pkt pktLen offset len)
    h.del

/-- What new formats with a template that fits have, and tokens do not change. -/
theorem kept_eachFmt {P : UInt32 → G1Fmt → Prop} (env : Env)
    (hfresh : ∀ topic key size pkt pktLen offset len, pktLen ≤ fmtPktSize →
      P topic (freshG1Fmt key size pkt pktLen offset len))
    (hadd : ∀ {topic fmt token tokens}, topic ≠ 0 → token.topic ≠ 0 → token.len ≠ 0 →
      P topic fmt → insertToken fmt.size token 0 0 fmt.token = some tokens →
        P topic { fmt with token := tokens })
    (hdel : ∀ {topic fmt} (tokenTopic : UInt32), P topic fmt →
      P topic (delG1TokenInternal fmt tokenTopic)) :
    Kept env (EdgeState.EachFmt P) := by
  have hiff : KeptIff env (EdgeState.EachFmt fun _ _ => True) (EdgeState.EachFmt P)
      (OnAddToken fun _ _ => True) :=
    keptIff_eachFmt (fun htopic htoken hlen _ hP =>
      iff_of_true (fun _ htokens => hadd htopic htoken hlen hP htokens) trivial) env hfresh hdel
  refine kept_of_sameConfig EdgeState.EachFmt.of_sameConfig ?_
  intro s c s' hI hexec
  apply (hiff.command (fun _ _ _ _ _ _ => trivial) hI hexec).mpr
  cases c with
  | addFormatToken topic key tokenTopic type offset len =>
      exact fun _ _ _ _ _ _ _ _ => trivial
  | _ => trivial

theorem FmtKept.kept {P : UInt32 → G1Fmt → Prop} (h : FmtKept P) (env : Env) :
    Kept env (EdgeState.EachFmt P) :=
  kept_eachFmt env
    (fun topic key size pkt pktLen offset len _ => h.fresh topic key size pkt pktLen offset len)
    h.add h.del

/-! ## What a token is made of -/

/-- A token extracts some bytes into an attribute with a proper topic, and its
product has a proper topic, too. -/
structure G1Token.Valid (topic : UInt32) (token : G1Token) : Prop where
  product : topic ≠ 0
  topic : token.topic ≠ 0
  len : token.len ≠ 0

theorem fmtKept_valid : FmtKept fun topic fmt => ∀ token ∈ fmt.token, token.Valid topic where
  fresh := fun _ _ _ _ _ _ _ => by simp [freshG1Fmt]
  add := by
    intro topic fmt token tokens htopic htoken hlen hvalid htokens cur hcur
    rcases List.mem_cons.mp ((insertToken_perm htokens).mem_iff.mp hcur) with rfl | hcur
    · exact ⟨htopic, htoken, hlen⟩
    · exact hvalid cur hcur
  del := fun _ hvalid token hmem => hvalid token (List.mem_of_mem_eraseP hmem)

end EceLib
