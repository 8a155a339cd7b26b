import EceLib.Edge.Config

/-!
# Counting references

A product should hold one reference to a topic for every token of its formats
that extracts it, and the global map one for every reference of a product.
This module counts both sides and says what each command does to them.
-/

namespace EceLib

open Support

/-- How many tokens of a product extract the attribute `topic`. -/
def EdgePdt.tokenCount (pdt : EdgePdt) (topic : UInt32) : ℕ :=
  pdt.fmtMap.total fun fmt => topicCount fmt.token topic

/-- The references of a product to an attribute. -/
def EdgePdt.refs (pdt : EdgePdt) (topic : UInt32) : ℕ := pdt.attrMap.refs topic

/-- The references of all products to an attribute. -/
def EdgeState.pdtRefs (s : EdgeState) (topic : UInt32) : ℕ :=
  s.gPdtMap.total fun pdt => pdt.refs topic

/-- The objects of both attribute maps are all held. -/
def EdgeState.AttrsHeld (s : EdgeState) : Prop :=
  s.gAttrMap.Held ∧ ∀ topic pdt, s.gPdtMap.get topic = some pdt → pdt.attrMap.Held

/-! ## Giving back references -/

/-- Every reference of the product has its counterpart in the global map. -/
def Covered (pdt : EdgePdt) (g : Registry UInt32 EdgeAttr) : Prop :=
  ∀ t, pdt.refs t ≤ g.refs t

/-- What the product gained or lost, the global map gained or lost. -/
def Balanced (pdt : EdgePdt) (g : Registry UInt32 EdgeAttr) (pdt' : EdgePdt)
    (g' : Registry UInt32 EdgeAttr) : Prop :=
  ∀ t, g'.refs t + pdt.refs t = g.refs t + pdt'.refs t

theorem Balanced.covered {pdt pdt' : EdgePdt} {g g' : Registry UInt32 EdgeAttr}
    (h : Balanced pdt g pdt' g') (hcov : Covered pdt g) : Covered pdt' g' := by
  intro t
  have hb := h t
  have hc := hcov t
  omega

theorem Balanced.trans {pdt pdt₁ pdt₂ : EdgePdt} {g g₁ g₂ : Registry UInt32 EdgeAttr}
    (h₁ : Balanced pdt g pdt₁ g₁) (h₂ : Balanced pdt₁ g₁ pdt₂ g₂) :
    Balanced pdt g pdt₂ g₂ := by
  intro t
  have hb₁ := h₁ t
  have hb₂ := h₂ t
  omega

theorem balanced_delPdtAttr {pdt : EdgePdt} {g : Registry UInt32 EdgeAttr}
    (hpdt : pdt.attrMap.Held) (hcov : Covered pdt g) (topic : UInt32) :
    Balanced pdt g (delPdtAttr pdt g topic).1 (delPdtAttr pdt g topic).2 := by
  intro t
  have hc := hcov t
  have hglobal := refs_delPdtAttr_global hpdt g topic t
  have hlocal := refs_delPdtAttr hpdt g topic t
  simp only [EdgePdt.refs] at hc ⊢
  rw [hglobal, hlocal]
  by_cases ht : t = topic
  · subst ht
    by_cases hpos : 0 < pdt.attrMap.refs t
    · simp only [hpos, and_self, if_true]
      omega
    · simp only [hpos, and_false, if_false, if_true]
      omega
  · simp only [ht, false_and, if_false]
    omega

/-- The state of a loop that gives back references, after references to the
topics counted by `n` were given back. -/
structure Released (pdt : EdgePdt) (g : Registry UInt32 EdgeAttr) (n : UInt32 → ℕ)
    (pdt' : EdgePdt) (g' : Registry UInt32 EdgeAttr) : Prop where
  held : pdt'.attrMap.Held
  held_global : g.Held → g'.Held
  refs : ∀ t, pdt'.refs t = pdt.refs t - n t
  balanced : Covered pdt g → Balanced pdt g pdt' g'

theorem Released.refl {pdt : EdgePdt} (hpdt : pdt.attrMap.Held)
    (g : Registry UInt32 EdgeAttr) : Released pdt g (fun _ => 0) pdt g where
  held := hpdt
  held_global := id
  refs := fun _ => rfl
  balanced := fun _ _ => rfl

theorem Released.trans {pdt pdt₁ pdt₂ : EdgePdt} {g g₁ g₂ : Registry UInt32 EdgeAttr}
    {n m k : UInt32 → ℕ} (h₁ : Released pdt g n pdt₁ g₁) (h₂ : Released pdt₁ g₁ m pdt₂ g₂)
    (hk : ∀ t, k t = n t + m t) : Released pdt g k pdt₂ g₂ where
  held := h₂.held
  held_global := fun hg => h₂.held_global (h₁.held_global hg)
  refs := fun t => by rw [h₂.refs, h₁.refs, hk, Nat.sub_sub]
  balanced := fun hcov =>
    (h₁.balanced hcov).trans (h₂.balanced ((h₁.balanced hcov).covered hcov))

theorem released_delPdtAttr {pdt : EdgePdt} (hpdt : pdt.attrMap.Held)
    (g : Registry UInt32 EdgeAttr) (topic : UInt32) :
    Released pdt g (fun t => if t = topic then 1 else 0)
      (delPdtAttr pdt g topic).1 (delPdtAttr pdt g topic).2 where
  held := held_delPdtAttr hpdt g topic
  held_global := fun hg => held_delPdtAttr_global hg pdt topic
  refs := refs_delPdtAttr hpdt g topic
  balanced := fun hcov => balanced_delPdtAttr hpdt hcov topic

/-- The loop over the tokens of a format gives back a reference for each. -/
theorem released_delTokenAttrs {pdt : EdgePdt} (hpdt : pdt.attrMap.Held)
    (g : Registry UInt32 EdgeAttr) (tokens : List G1Token) :
    Released pdt g (topicCount tokens)
      (delTokenAttrs pdt g tokens).1 (delTokenAttrs pdt g tokens).2 := by
  induction tokens generalizing pdt g with
  | nil => exact .refl hpdt g
  | cons token tokens ih =>
      have hfirst := released_delPdtAttr hpdt g token.topic
      refine hfirst.trans (ih hfirst.held _) ?_
      intro t
      rw [topicCount_cons, Nat.add_comm]

theorem released_delG1FmtInternal {pdt : EdgePdt} (hpdt : pdt.attrMap.Held)
    (g : Registry UInt32 EdgeAttr) (fmt : G1Fmt) :
    Released pdt g (topicCount fmt.token)
      (delG1FmtInternal pdt g fmt).1 (delG1FmtInternal pdt g fmt).2 := by
  obtain ⟨hheld, hglobal, hrefs, hbal⟩ := released_delTokenAttrs hpdt g fmt.token
  exact ⟨hheld, hglobal, hrefs, hbal⟩

/-- Deleting all formats gives back a reference for every token of the product. -/
theorem released_delFmts {pdt : EdgePdt} (hpdt : pdt.attrMap.Held)
    (g : Registry UInt32 EdgeAttr) :
    Released pdt g pdt.tokenCount (delFmts pdt g).1 (delFmts pdt g).2 := by
  have hloop : ∀ (entries : List (UInt32 × G1Fmt)) {pdt : EdgePdt} (_ : pdt.attrMap.Held)
      (g : Registry UInt32 EdgeAttr),
      Released pdt g (fun t => (entries.map fun entry => topicCount entry.2.token t).sum)
        (entries.foldl (fun st entry => delG1FmtInternal st.1 st.2 entry.2) (pdt, g)).1
        (entries.foldl (fun st entry => delG1FmtInternal st.1 st.2 entry.2) (pdt, g)).2 := by
    intro entries
    induction entries with
    | nil => exact fun hpdt g => .refl hpdt g
    | cons entry entries ih =>
        intro pdt hpdt g
        have hfirst := released_delG1FmtInternal hpdt g entry.2
        refine hfirst.trans (ih hfirst.held _) ?_
        intro t
        rw [List.map_cons, List.sum_cons]
  exact hloop pdt.fmtMap.entries hpdt g

/-! ## Changing a product -/

theorem EdgePdt.tokenCount_pos_iff {pdt : EdgePdt} {topic : UInt32} :
    0 < pdt.tokenCount topic ↔
      ∃ key fmt, pdt.fmtMap.get key = some fmt ∧ ∃ token ∈ fmt.token, token.topic = topic := by
  unfold tokenCount
  rw [Registry.total_pos_iff]
  have hpos : ∀ fmt : G1Fmt, 0 < topicCount fmt.token topic ↔
      ∃ token ∈ fmt.token, token.topic = topic := fun fmt => by
    simp only [topicCount, List.countP_pos_iff, decide_eq_true_eq, eq_comm (a := topic)]
  simp only [hpos]

/-- A format takes the place of another one. -/
theorem EdgePdt.tokenCount_putFmt (pdt : EdgePdt) {key : UInt32} {fmt : G1Fmt} (fmt' : G1Fmt)
    (hget : pdt.fmtMap.get key = some fmt) (hkey : fmt'.key = key) (t : UInt32) :
    (pdt.putFmt fmt').tokenCount t + topicCount fmt.token t =
      pdt.tokenCount t + topicCount fmt'.token t := by
  subst hkey
  exact Registry.total_put_of_some hget _

theorem EdgePdt.tokenCount_putFmt_of_none {pdt : EdgePdt} {fmt : G1Fmt}
    (hget : pdt.fmtMap.get fmt.key = none) (t : UInt32) :
    (pdt.putFmt fmt).tokenCount t = pdt.tokenCount t + topicCount fmt.token t :=
  Registry.total_put_of_none hget _

/-- Deleting a format takes its tokens out of the product. -/
theorem EdgePdt.tokenCount_delG1FmtInternal {pdt : EdgePdt} {key : UInt32} {fmt : G1Fmt}
    (hget : pdt.fmtMap.get key = some fmt) (g : Registry UInt32 EdgeAttr) (t : UInt32) :
    pdt.tokenCount t =
      (delG1FmtInternal pdt g fmt).1.tokenCount t + topicCount fmt.token t := by
  have hkey : fmt.key = key := Registry.key_of_get hget
  obtain ⟨attrMap, h⟩ := delG1FmtInternal_fst pdt g fmt
  rw [h, hkey]
  exact Registry.total_remove hget _

/-! ## Objects are held -/

namespace EdgeState

theorem AttrsHeld.putPdt {s : EdgeState} (h : s.AttrsHeld) {pdt : EdgePdt}
    {g : Registry UInt32 EdgeAttr} (hpdt : pdt.attrMap.Held) (hg : g.Held) :
    (s.putPdt pdt g).AttrsHeld :=
  ⟨hg, Registry.forall_put h.2 hpdt⟩

theorem AttrsHeld.of_sameConfig {s s' : EdgeState} (hsame : SameConfig s s')
    (h : s.AttrsHeld) : s'.AttrsHeld := by
  refine ⟨hsame.attr ▸ h.1, ?_⟩
  intro topic pdt' hget
  obtain ⟨pdt, hpdt, hconfig⟩ := hsame.exists_get hget
  have hattr : pdt.attrMap = pdt'.attrMap := by
    simpa only [EdgePdt.config] using congrArg EdgePdt.attrMap hconfig
  exact hattr ▸ h.2 topic pdt hpdt

end EdgeState

theorem kept_attrsHeld (env : Env) : Kept env EdgeState.AttrsHeld := by
  refine kept_of_sameConfig EdgeState.AttrsHeld.of_sameConfig ?_
  intro s c s' h hexec
  cases c with
  | addProduct topic endian =>
      cases hexec
      rcases addPdt_cases s topic endian with ⟨heq, _⟩ | ⟨pdt, _, _, _, _, hattr, _, heq⟩
      · exact heq.symm ▸ h
      · rw [heq]
        exact h.putPdt (g := s.gAttrMap) (hattr ▸ Registry.held_init 4 (by decide)) h.1
  | delProduct topic =>
      cases hexec
      rcases delPdt_cases s topic with ⟨heq, _⟩ | ⟨pdt, hget, heq⟩
      · exact heq.symm ▸ h
      · rw [heq]
        exact ⟨(released_delFmts (h.2 topic pdt hget) s.gAttrMap).held_global h.1,
          Registry.forall_remove h.2⟩
  | addPacketFormat pkt pktLen topic key size offset len =>
      rcases addG1Fmt_cases hexec with ⟨_, rfl⟩ | ⟨pdt, hget, _, rfl⟩
      · exact h
      · exact h.putPdt (h.2 topic pdt hget) h.1
  | delPacketFormat topic key =>
      cases hexec
      rcases delG1Fmt_cases s topic key with heq | ⟨pdt, fmt, hget, _, heq⟩
      · exact heq.symm ▸ h
      · have hrel := released_delG1FmtInternal (h.2 topic pdt hget) s.gAttrMap fmt
        rw [heq]
        exact h.putPdt hrel.held (hrel.held_global h.1)
  | addFormatToken topic key tokenTopic type offset len =>
      cases hexec
      rcases addG1Token_cases s topic key tokenTopic type offset.toNat len.toNat with
        heq | ⟨pdt, fmt, tokens, attr, eattr, hget, _, _, htopic, _, _, _, hattr, href, heattr,
          heref, heq⟩
      · exact heq.symm ▸ h
      · rw [heq]
        refine h.putPdt ((h.2 topic pdt hget).put ?_ ?_) (h.1.put ?_ ?_)
        · change attr.topic ≠ 0
          rwa [hattr]
        · change 0 < attr.ref
          omega
        · change eattr.topic ≠ 0
          rwa [heattr]
        · change 0 < eattr.ref
          omega
  | delFormatToken topic key tokenTopic =>
      cases hexec
      rcases delG1Token_cases s topic key tokenTopic with
        ⟨heq, _⟩ | ⟨pdt, fmt, _, _, hget, _, heq⟩
      · exact heq.symm ▸ h
      · rw [heq]
        exact h.putPdt (held_delPdtAttr (h.2 topic pdt hget) _ _)
          (held_delPdtAttr_global h.1 _ _)
  | addDevice addr len linkType module topic =>
      exact h.of_sameConfig (EdgeState.sameConfig_addDevice hexec)
  | delDevice addr len linkType =>
      exact h.of_sameConfig (EdgeState.sameConfig_delDevice hexec)

theorem attrsHeld_init (mac : List UInt8) (clock : ℕ → ℕ) :
    (EdgeState.init mac clock).AttrsHeld := by
  refine ⟨Registry.held_init 64 (by decide), ?_⟩
  intro topic pdt h
  simp [EdgeState.init] at h

end EceLib
