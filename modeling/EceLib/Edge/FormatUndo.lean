import EceLib.Edge.References
import EceLib.HashMap.Gained

/-!
# Deleting a format undoes building it

While a format is built its product and the global map gain one reference for
each token of the format, and nothing else changes.  `del_g1_fmt` gives all of
them back, so that every map is as before the format was added.
-/

namespace EceLib

open Support

instance : Recounted EdgeAttr where
  withRef := fun attr n => { attr with ref := n }
  key_withRef := fun _ _ => rfl
  ref_withRef := fun _ _ => rfl
  withRef_ref := fun _ => rfl
  withRef_withRef := fun _ _ _ => rfl

instance : Recounted PdtAttr where
  withRef := fun attr n => { attr with ref := n }
  key_withRef := fun _ _ => rfl
  ref_withRef := fun _ _ => rfl
  withRef_ref := fun _ => rfl
  withRef_withRef := fun _ _ _ => rfl

/-! ## Taking references and giving them back -/

section References

variable {r : Registry UInt32 PdtAttr} {g₀ g : Registry UInt32 EdgeAttr} {pdt : EdgePdt}
  {n m : UInt32 → ℕ} {topic type : UInt32} {len : ℕ}

theorem gained_addAttr (h : Registry.Gained g₀ n g) (htopic : topic ≠ 0)
    (htype : EdgeAttrType.ofCode type ≠ none) (hlen : len ≠ 0)
    (hm : ∀ t, m t = n t + if t = topic then 1 else 0) :
    Registry.Gained g₀ m (addAttr g topic type len).2 := by
  obtain ⟨ty, hty⟩ := Option.ne_none_iff_exists'.mp htype
  unfold addAttr
  rw [hty]
  simp only [htopic, hlen, or_self, if_false]
  cases hget : g.get topic with
  | none => exact h.take hm rfl (Or.inr ⟨hget, rfl⟩)
  | some attr => exact h.take hm (Registry.key_of_get hget) (Or.inl hget)

/-- `add_pdt_attr` takes one reference from each of the two maps. -/
theorem gained_addPdtAttr (hr : Registry.Gained r n pdt.attrMap) (hg : Registry.Gained g₀ n g)
    (htopic : topic ≠ 0) (htype : EdgeAttrType.ofCode type ≠ none) (hlen : len ≠ 0)
    (hm : ∀ t, m t = n t + if t = topic then 1 else 0) :
    ∃ attrMap, (addPdtAttr pdt g topic type len).2.1 = { pdt with attrMap := attrMap } ∧
      Registry.Gained r m attrMap ∧ Registry.Gained g₀ m (addPdtAttr pdt g topic type len).2.2 := by
  have hglobal := gained_addAttr hg htopic htype hlen hm
  obtain ⟨eattr, _, _, hadd⟩ := addAttr_of_valid (g := g) htopic htype hlen
  unfold addPdtAttr
  rw [if_neg (by simp [htopic, htype, hlen])]
  rw [hadd] at hglobal ⊢
  refine ⟨_, rfl, ?_, hglobal⟩
  cases hget : pdt.attrMap.get topic with
  | none => exact hr.take hm rfl (Or.inr ⟨hget, rfl⟩)
  | some attr => exact hr.take hm (Registry.key_of_get hget) (Or.inl hget)

/-- `del_pdt_attr` gives one reference back to each of the two maps. -/
theorem gained_delPdtAttr (hheld : r.Held) (hheld₀ : g₀.Held)
    (hr : Registry.Gained r n pdt.attrMap) (hg : Registry.Gained g₀ n g) (htopic : topic ≠ 0)
    (hn : ∀ t, n t = m t + if t = topic then 1 else 0) :
    Registry.Gained r m (delPdtAttr pdt g topic).1.attrMap ∧
      Registry.Gained g₀ m (delPdtAttr pdt g topic).2 := by
  obtain ⟨attr, hattr, hback⟩ := hr.giveBack hheld hn
  obtain ⟨eattr, heattr, hback₀⟩ := hg.giveBack hheld₀ hn
  unfold delPdtAttr
  rw [if_neg htopic, hattr]
  refine ⟨hback, ?_⟩
  rw [delAttr_of_some heattr]
  exact hback₀

/-- The loop over the tokens gives back all that was gained for them. -/
theorem gained_delTokenAttrs {tokens : List G1Token} (hheld : r.Held) (hheld₀ : g₀.Held)
    (htopics : ∀ token ∈ tokens, token.topic ≠ 0)
    (hr : Registry.Gained r (topicCount tokens) pdt.attrMap)
    (hg : Registry.Gained g₀ (topicCount tokens) g) :
    (∀ t, (delTokenAttrs pdt g tokens).1.attrMap.get t = r.get t) ∧
      ∀ t, (delTokenAttrs pdt g tokens).2.get t = g₀.get t := by
  induction tokens generalizing pdt g with
  | nil => exact ⟨Registry.gained_zero_iff.mp hr, Registry.gained_zero_iff.mp hg⟩
  | cons token tokens ih =>
      obtain ⟨htoken, htopics⟩ := List.forall_mem_cons.mp htopics
      obtain ⟨hr', hg'⟩ :=
        gained_delPdtAttr hheld hheld₀ hr hg htoken (topicCount_cons token tokens)
      exact ih htopics hr' hg'

end References

/-! ## Building a format -/

/-- The arguments of a call of `add_g1_token` besides the product and the format. -/
structure TokenCall where
  tokenTopic : UInt32
  type : UInt32
  offset : ℕ
  len : ℕ

/-- A sequence of calls of `add_g1_token` on one format. -/
def addG1Tokens (s : EdgeState) (topic key : UInt32) (calls : List TokenCall) : EdgeState :=
  calls.foldl
    (fun s call => (addG1Token s topic key call.tokenTopic call.type call.offset call.len).2) s

/-- A format is being built in a product of the state `s`: beyond that format
and the references of its tokens nothing changed. -/
structure Building (s : EdgeState) (pdt : EdgePdt) (fmt : G1Fmt) (s' : EdgeState)
    (pdt' : EdgePdt) : Prop where
  frame : ∃ pdts g, s' = { s with gPdtMap := pdts, gAttrMap := g }
  others : ∀ t, t ≠ pdt.topic → s'.gPdtMap.get t = s.gPdtMap.get t
  get : s'.gPdtMap.get pdt.topic = some pdt'
  product : ∃ attrMap fmtMap, pdt' = { pdt with attrMap := attrMap, fmtMap := fmtMap }
  fmts : ∀ k, pdt'.fmtMap.get k = if k = fmt.key then some fmt else pdt.fmtMap.get k
  topics : ∀ token ∈ fmt.token, token.topic ≠ 0
  attrs : Registry.Gained pdt.attrMap (topicCount fmt.token) pdt'.attrMap
  globals : Registry.Gained s.gAttrMap (topicCount fmt.token) s'.gAttrMap

/-- The state `s'` has what `s` has: the same formats and attributes of the
product, the same global attributes, the same other products, and the rest. -/
structure Restored (s : EdgeState) (pdt : EdgePdt) (s' : EdgeState) : Prop where
  frame : ∃ pdts g, s' = { s with gPdtMap := pdts, gAttrMap := g }
  others : ∀ t, t ≠ pdt.topic → s'.gPdtMap.get t = s.gPdtMap.get t
  product : ∃ attrMap fmtMap,
    s'.gPdtMap.get pdt.topic = some { pdt with attrMap := attrMap, fmtMap := fmtMap } ∧
      (∀ k, fmtMap.get k = pdt.fmtMap.get k) ∧ ∀ t, attrMap.get t = pdt.attrMap.get t
  globals : ∀ t, s'.gAttrMap.get t = s.gAttrMap.get t

theorem frame_putPdt {s s' : EdgeState}
    (h : ∃ pdts g, s' = { s with gPdtMap := pdts, gAttrMap := g }) (pdt : EdgePdt)
    (g : Registry UInt32 EdgeAttr) :
    ∃ pdts g', s'.putPdt pdt g = { s with gPdtMap := pdts, gAttrMap := g' } := by
  obtain ⟨pdts, _, rfl⟩ := h
  exact ⟨pdts.put pdt, g, rfl⟩

/-- A product of the same topic leaves the others as they are. -/
theorem get_putPdt_of_ne (s : EdgeState) {topic t : UInt32} {pdt : EdgePdt}
    (hkey : pdt.topic = topic) (h : t ≠ topic) (g : Registry UInt32 EdgeAttr) :
    (s.putPdt pdt g).gPdtMap.get t = s.gPdtMap.get t := by
  subst hkey
  exact Registry.get_put_of_ne s.gPdtMap pdt h

/-- A new format has no tokens, and nothing was gained. -/
theorem building_putFmt (s : EdgeState) (pdt : EdgePdt) {fmt : G1Fmt}
    (hempty : fmt.token = []) :
    Building s pdt fmt (s.putPdt (pdt.putFmt fmt) s.gAttrMap) (pdt.putFmt fmt) where
  frame := ⟨_, _, rfl⟩
  others := by
    intro t ht
    apply get_putPdt_of_ne s _ ht
    rfl
  get := Registry.get_put_self s.gPdtMap (pdt.putFmt fmt)
  product := ⟨_, _, rfl⟩
  fmts := fun k => Registry.get_put pdt.fmtMap fmt k
  topics := by simp [hempty]
  attrs := by
    rw [hempty]
    exact Registry.gained_zero_iff.mpr fun _ => rfl
  globals := by
    rw [hempty]
    exact Registry.gained_zero_iff.mpr fun _ => rfl

/-- One call on the format: it is refused, or takes one reference of each kind. -/
theorem Building.addG1Token {s s' : EdgeState} {pdt pdt' : EdgePdt} {fmt : G1Fmt}
    (h : Building s pdt fmt s' pdt') (tokenTopic type : UInt32) (offset len : ℕ) :
    ∃ fmt' pdt'', fmt'.key = fmt.key ∧
      Building s pdt fmt' (addG1Token s' pdt.topic fmt.key tokenTopic type offset len).2 pdt'' := by
  rcases addG1Token_cases s' pdt.topic fmt.key tokenTopic type offset len with
    heq | ⟨pdt₁, fmt₁, tokens, _, _, hget, hfmt, htopic, htoken, htype, hlen, htokens, _⟩
  · exact ⟨fmt, pdt', rfl, heq.symm ▸ h⟩
  · obtain rfl := Option.some.inj (h.get.symm.trans hget)
    have hsame := h.fmts fmt.key
    rw [if_pos rfl, hfmt] at hsame
    obtain rfl := Option.some.inj hsame
    have hperm := insertToken_perm htokens
    have hm : ∀ t, topicCount tokens t =
        topicCount fmt₁.token t + if t = tokenTopic then 1 else 0 := fun t => by
      rw [topicCount_perm hperm, topicCount_cons]
    rw [addG1Token_of_place htopic htoken htype hlen hget hfmt htokens]
    have hgained : Registry.Gained pdt.attrMap (topicCount fmt₁.token)
        (pdt'.putFmt { fmt₁ with token := tokens }).attrMap := h.attrs
    obtain ⟨attrMap, hfst, hattrs, hglobals⟩ :=
      gained_addPdtAttr hgained h.globals htoken htype hlen hm
    rw [hfst]
    obtain ⟨attrMap₀, fmtMap₀, hproduct⟩ := h.product
    have hkey : pdt'.topic = pdt.topic := by rw [hproduct]
    refine ⟨{ fmt₁ with token := tokens }, _, rfl, frame_putPdt h.frame _ _, ?_,
      EdgeState.get_putPdt hget rfl, ⟨attrMap, pdt'.fmtMap.put { fmt₁ with token := tokens }, ?_⟩,
      ?_, ?_, hattrs, hglobals⟩
    · intro t ht
      rw [← h.others t ht]
      apply get_putPdt_of_ne s' _ ht
      exact hkey
    · rw [hproduct]
      rfl
    · intro k
      have hput := Registry.get_put pdt'.fmtMap { fmt₁ with token := tokens } k
      have hold := h.fmts k
      change _ = if k = fmt₁.key then _ else _ at hput
      by_cases hk : k = fmt₁.key
      · rw [if_pos hk] at hput ⊢
        exact hput
      · rw [if_neg hk] at hput hold ⊢
        exact hput.trans hold
    · intro token hmem
      rcases List.mem_cons.mp (hperm.mem_iff.mp hmem) with rfl | hmem
      · exact htoken
      · exact h.topics token hmem

/-- Any sequence of calls on the format. -/
theorem Building.addG1Tokens {s s' : EdgeState} {pdt pdt' : EdgePdt} {fmt : G1Fmt}
    (h : Building s pdt fmt s' pdt') (calls : List TokenCall) :
    ∃ fmt' pdt'', fmt'.key = fmt.key ∧
      Building s pdt fmt' (addG1Tokens s' pdt.topic fmt.key calls) pdt'' := by
  induction calls generalizing s' pdt' fmt with
  | nil => exact ⟨fmt, pdt', rfl, h⟩
  | cons call calls ih =>
      obtain ⟨fmt₁, pdt₁, hkey, hfirst⟩ :=
        h.addG1Token call.tokenTopic call.type call.offset call.len
      obtain ⟨fmt₂, pdt₂, hkey₂, hrest⟩ := ih hfirst
      rw [hkey] at hrest
      exact ⟨fmt₂, pdt₂, hkey₂.trans hkey, hrest⟩

/-- Deleting the format gives everything back. -/
theorem Building.delG1Fmt {s s' : EdgeState} {pdt pdt' : EdgePdt} {fmt : G1Fmt}
    (h : Building s pdt fmt s' pdt') (hheld : pdt.attrMap.Held) (hheld₀ : s.gAttrMap.Held)
    (hkey : pdt.fmtMap.get fmt.key = none) :
    Restored s pdt (delG1Fmt s' pdt.topic fmt.key) := by
  have hfmt := h.fmts fmt.key
  rw [if_pos rfl] at hfmt
  obtain ⟨hattrs, hglobals⟩ := gained_delTokenAttrs hheld hheld₀ h.topics h.attrs h.globals
  obtain ⟨attrMap, hfst⟩ := delTokenAttrs_fst pdt' s'.gAttrMap fmt.token
  obtain ⟨attrMap₀, fmtMap₀, hproduct⟩ := h.product
  have htopic : pdt'.topic = pdt.topic := by rw [hproduct]
  have hdel : (delG1FmtInternal pdt' s'.gAttrMap fmt).1 =
      { pdt with attrMap := attrMap, fmtMap := pdt'.fmtMap.remove fmt.key } := by
    simp only [delG1FmtInternal, hfst]
    rw [hproduct]
  rw [hfst] at hattrs
  rw [delG1Fmt_of_get h.get hfmt, hdel]
  refine ⟨frame_putPdt h.frame _ _, ?_,
    ⟨attrMap, pdt'.fmtMap.remove fmt.key, ?_, ?_, hattrs⟩, hglobals⟩
  · intro t ht
    rw [← h.others t ht]
    apply get_putPdt_of_ne s' _ ht
    rfl
  · exact EdgeState.get_putPdt h.get htopic.symm
  · intro k
    rw [Registry.get_remove, h.fmts k]
    by_cases hk : k = fmt.key
    · rw [if_pos hk, hk, hkey]
    · rw [if_neg hk, if_neg hk]

/-- In every state that can be reached, a format of a product that has none
under the key is added, built by any calls, and deleted: all is as before. -/
theorem delG1Fmt_restores {env : Env} {mac : List UInt8} {clock : ℕ → ℕ} {es : List Event}
    {s s₁ : EdgeState} {topic key : UInt32} {pdt : EdgePdt} {size pktLen offset len : ℕ}
    {pkt : Buf} (hrun : run (EdgeState.step env) (EdgeState.init mac clock) es = some s)
    (hpdt : s.gPdtMap.get topic = some pdt) (hkey : pdt.fmtMap.get key = none)
    (hadd : (addG1Fmt s topic key size pkt pktLen offset len).val = some s₁)
    (calls : List TokenCall) :
    Restored s pdt (delG1Fmt (addG1Tokens s₁ topic key calls) topic key) := by
  have hheld := (kept_attrsHeld env).run (attrsHeld_init mac clock) hrun
  have htopic : pdt.topic = topic := Registry.key_of_get hpdt
  rcases addG1Fmt_cases hadd with ⟨hnone, _⟩ | ⟨pdt₁, hpdt₁, _, rfl⟩
  · rw [hnone] at hpdt
    cases hpdt
  · obtain rfl := Option.some.inj (hpdt.symm.trans hpdt₁)
    obtain ⟨fmt, pdt', hfmt, hbuilding⟩ :=
      (building_putFmt s pdt
        (rfl : (freshG1Fmt key size pkt pktLen offset len).token = [])).addG1Tokens calls
    have hdel := hbuilding.delG1Fmt (hheld.2 topic pdt hpdt) hheld.1 (by rw [hfmt]; exact hkey)
    rw [htopic, hfmt] at hdel
    exact hdel

/-- A product whose format has a token of topic 1. -/
def sharedTopicRun : List Command :=
  [.addProduct 5 1, .addPacketFormat (Buf.ofBytes []) 0 5 7 10 0 0, .addFormatToken 5 7 1 0 0 1]

/-- Tokens of topic 1 and of a new topic, and two calls that fail. -/
def undoneCalls : List TokenCall := [⟨1, 0, 0, 1⟩, ⟨2, 1, 4, 2⟩, ⟨2, 0, 8, 1⟩, ⟨3, 2, 1, 1⟩]

theorem delG1Fmt_restores_undoneCalls :
    ∃ s s₁ pdt, run (EdgeState.step Env.plain) (EdgeState.init [] fun _ => 0)
        (sharedTopicRun.map Event.command) = some s ∧
      s.gPdtMap.get 5 = some pdt ∧ pdt.fmtMap.get 8 = none ∧
      (addG1Fmt s 5 8 10 (Buf.ofBytes []) 0 0 0).val = some s₁ ∧
      Restored s pdt (delG1Fmt (addG1Tokens s₁ 5 8 undoneCalls) 5 8) := by
  have heval : ((run (EdgeState.step Env.plain) (EdgeState.init [] fun _ => 0)
      (sharedTopicRun.map Event.command)).map fun s =>
        ((s.gPdtMap.get 5).map fun pdt => (pdt.fmtMap.get 8).isNone,
          (addG1Fmt s 5 8 10 (Buf.ofBytes []) 0 0 0).val.isSome)) = some (some true, true) := by
    decide +kernel
  obtain ⟨s, hrun, heq⟩ := Option.map_eq_some_iff.mp heval
  obtain ⟨hfind, hsome⟩ := Prod.mk.inj heq
  obtain ⟨pdt, hpdt, hnone⟩ := Option.map_eq_some_iff.mp hfind
  obtain ⟨s₁, hadd⟩ := Option.isSome_iff_exists.mp hsome
  have hkey : pdt.fmtMap.get 8 = none := Option.isNone_iff_eq_none.mp hnone
  exact ⟨s, s₁, pdt, hrun, hpdt, hkey, hadd, delG1Fmt_restores hrun hpdt hkey hadd undoneCalls⟩

end EceLib
