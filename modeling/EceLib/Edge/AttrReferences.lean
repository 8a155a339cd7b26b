import EceLib.Edge.TokenReferences

/-!
# References of the global map and of the products

The global attribute map is meant to count the references of all products.
Every command moves the two counts together but the deletion of a product, which
gives back one reference for each token that can still be reached from the
product and then forgets the references it has left.
-/

namespace EceLib

open Support

namespace EdgeState

/-- The global map has an attribute for exactly the topics some product refers
to, and counts the references of all products. -/
def GlobalRefs (s : EdgeState) : Prop :=
  ∀ t, ((s.gAttrMap.get t).isSome ↔ 0 < s.pdtRefs t) ∧
    ∀ attr, s.gAttrMap.get t = some attr → attr.ref = s.pdtRefs t

theorem globalRefs_iff {s : EdgeState} (h : s.AttrsHeld) :
    s.GlobalRefs ↔ ∀ t, s.gAttrMap.refs t = s.pdtRefs t :=
  h.1.forall_refs_eq_iff.symm

/-- Without products there are no attributes. -/
theorem GlobalRefs.entries_eq_nil {s : EdgeState} (h : s.GlobalRefs)
    (hempty : s.gPdtMap.entries = []) : s.gAttrMap.entries = [] := by
  apply Registry.entries_eq_nil_iff.mpr
  intro t
  have hzero : s.pdtRefs t = 0 := by simp [pdtRefs, Registry.total, hempty]
  have hsome := (h t).1
  rw [hzero] at hsome
  simpa using hsome

end EdgeState

/-- A product may be deleted when all of its references are those of tokens it
still has. -/
def KeepsGlobalRefs (s : EdgeState) : Command → Prop
  | .delProduct topic =>
      ∀ pdt, s.gPdtMap.get topic = some pdt → ∀ t, pdt.refs t ≤ pdt.tokenCount t
  | _ => True

/-! ## Each command -/

namespace EdgeState

theorem GlobalRefs.of_sameConfig {s s' : EdgeState} (hsame : SameConfig s s')
    (h : s.GlobalRefs) : s'.GlobalRefs := by
  have hrefs : s'.pdtRefs = s.pdtRefs := by
    funext t
    exact hsame.total fun pdt => pdt.refs t
  intro t
  rw [hsame.attr, hrefs]
  exact h t

/-- The global map counts at least the references of the products. -/
def RefsCovered (s : EdgeState) : Prop := ∀ t, s.pdtRefs t ≤ s.gAttrMap.refs t

/-- What the products gained or lost, the global map gained or lost. -/
def RefsBalanced (s s' : EdgeState) : Prop :=
  ∀ t, s'.gAttrMap.refs t + s.pdtRefs t = s.gAttrMap.refs t + s'.pdtRefs t

theorem RefsBalanced.refl (s : EdgeState) : RefsBalanced s s := fun _ => rfl

theorem refsBalanced_of_sameConfig {s s' : EdgeState} (hsame : SameConfig s s') :
    RefsBalanced s s' := by
  intro t
  have htotal : s'.pdtRefs t = s.pdtRefs t := hsame.total fun pdt => pdt.refs t
  rw [hsame.attr, htotal]

theorem RefsBalanced.covered {s s' : EdgeState} (hbal : RefsBalanced s s')
    (h : s.RefsCovered) : s'.RefsCovered := by
  intro t
  have hb := hbal t
  have ht := h t
  omega

theorem RefsBalanced.refs_eq {s s' : EdgeState} (hbal : RefsBalanced s s')
    (h : ∀ t, s.gAttrMap.refs t = s.pdtRefs t) (t : UInt32) :
    s'.gAttrMap.refs t = s'.pdtRefs t := by
  have hb := hbal t
  have ht := h t
  omega

/-- Each product is covered by the global map. -/
theorem RefsCovered.covered {s : EdgeState} (h : s.RefsCovered) {topic : UInt32}
    {pdt : EdgePdt} (hget : s.gPdtMap.get topic = some pdt) : Covered pdt s.gAttrMap := by
  intro t
  have hle : pdt.refs t ≤ s.pdtRefs t := Registry.le_total hget fun pdt => pdt.refs t
  exact hle.trans (h t)

/-- A product and the global map are changed together. -/
theorem refsBalanced_putPdt {s : EdgeState} {topic : UInt32} {pdt pdt' : EdgePdt}
    {g : Registry UInt32 EdgeAttr} (hget : s.gPdtMap.get topic = some pdt)
    (hkey : pdt'.topic = topic) (hbal : Balanced pdt s.gAttrMap pdt' g) :
    RefsBalanced s (s.putPdt pdt' g) := by
  intro t
  subst hkey
  have htotal : (s.putPdt pdt' g).pdtRefs t + pdt.refs t = s.pdtRefs t + pdt'.refs t :=
    Registry.total_put_of_some hget fun pdt => pdt.refs t
  have hb := hbal t
  change g.refs t + _ = _
  omega

/-- A new product has no references. -/
theorem refsBalanced_addPdt (s : EdgeState) (topic endian : UInt32) :
    RefsBalanced s (s.addPdt topic endian).2 := by
  rcases addPdt_cases s topic endian with ⟨heq, _⟩ | ⟨pdt, hnone, rfl, _, _, hattr, _, heq⟩
  · exact heq.symm ▸ .refl s
  · intro t
    rw [heq]
    have htotal : (s.gPdtMap.put pdt).total (fun pdt => pdt.refs t) = s.pdtRefs t + pdt.refs t :=
      Registry.total_put_of_none hnone fun pdt => pdt.refs t
    have hzero : pdt.refs t = 0 := by simp [EdgePdt.refs, hattr]
    change s.gAttrMap.refs t + s.pdtRefs t =
      s.gAttrMap.refs t + (s.gPdtMap.put pdt).total fun pdt => pdt.refs t
    omega

theorem delPdt_of_get {s : EdgeState} {topic : UInt32} {pdt : EdgePdt}
    (hget : s.gPdtMap.get topic = some pdt) :
    s.delPdt topic =
      { s with
        gPdtMap := s.gPdtMap.remove topic
        gAttrMap := (delFmts pdt s.gAttrMap).2 } := by
  simp only [delPdt, getPdt, hget]

/-- A product that is deleted takes along what its tokens do not account for. -/
theorem refs_delPdt {s : EdgeState} (hheld : s.AttrsHeld) (hcov : s.RefsCovered)
    {topic : UInt32} {pdt : EdgePdt} (hget : s.gPdtMap.get topic = some pdt) (t : UInt32) :
    (s.delPdt topic).gAttrMap.refs t + s.pdtRefs t =
      s.gAttrMap.refs t + (s.delPdt topic).pdtRefs t + (pdt.refs t - pdt.tokenCount t) := by
  have hrel := released_delFmts (hheld.2 topic pdt hget) s.gAttrMap
  have hb := hrel.balanced (hcov.covered hget) t
  have hr := hrel.refs t
  have htotal : s.pdtRefs t = (s.gPdtMap.remove topic).total (fun pdt => pdt.refs t) + pdt.refs t :=
    Registry.total_remove hget fun pdt => pdt.refs t
  rw [delPdt_of_get hget]
  change (delFmts pdt s.gAttrMap).2.refs t + s.pdtRefs t =
    s.gAttrMap.refs t + (s.gPdtMap.remove topic).total (fun pdt => pdt.refs t) + _
  omega

/-- Deleting a product loses the references that its tokens do not account for. -/
theorem refs_eq_delPdt_iff {s : EdgeState} (hheld : s.AttrsHeld)
    (h : ∀ t, s.gAttrMap.refs t = s.pdtRefs t) {topic : UInt32} {pdt : EdgePdt}
    (hget : s.gPdtMap.get topic = some pdt) :
    (∀ t, (s.delPdt topic).gAttrMap.refs t = (s.delPdt topic).pdtRefs t) ↔
      ∀ t, pdt.refs t ≤ pdt.tokenCount t := by
  have hcov : s.RefsCovered := fun t => (h t).ge
  refine forall_congr' fun t => ?_
  have hdel := refs_delPdt hheld hcov hget t
  have ht := h t
  omega

theorem globalRefs_delPdt_iff {s : EdgeState} {topic : UInt32} (hK : s.AttrsHeld)
    (hK' : (s.delPdt topic).AttrsHeld) (hI : s.GlobalRefs) :
    (s.delPdt topic).GlobalRefs ↔ KeepsGlobalRefs s (.delProduct topic) := by
  have hrefs := (globalRefs_iff hK).mp hI
  rw [globalRefs_iff hK']
  cases hget : s.gPdtMap.get topic with
  | none =>
      refine iff_of_true ?_ ?_
      · rcases delPdt_cases s topic with ⟨heq, _⟩ | ⟨pdt, hsome, _⟩
        · exact heq.symm ▸ hrefs
        · rw [hget] at hsome
          cases hsome
      · intro pdt hsome
        rw [hget] at hsome
        cases hsome
  | some pdt =>
      rw [refs_eq_delPdt_iff hK hrefs hget]
      constructor
      · intro hle pdt' hget'
        obtain rfl := Option.some.inj (hget.symm.trans hget')
        exact hle
      · intro hC
        exact hC pdt hget

end EdgeState

/-- A token adds a reference to both maps. -/
theorem balanced_addToken {pdt : EdgePdt} {g : Registry UInt32 EdgeAttr} {fmt : G1Fmt}
    {attr : PdtAttr} {eattr : EdgeAttr} {tokenTopic : UInt32} (hattr : attr.topic = tokenTopic)
    (href : attr.ref = pdt.attrMap.refs tokenTopic + 1) (heattr : eattr.topic = tokenTopic)
    (heref : eattr.ref = g.refs tokenTopic + 1) :
    Balanced pdt g { pdt.putFmt fmt with attrMap := pdt.attrMap.put attr } (g.put eattr) := by
  intro t
  change (g.put eattr).refs t + pdt.attrMap.refs t = g.refs t + (pdt.attrMap.put attr).refs t
  rw [Registry.refs_put, Registry.refs_put]
  change (if t = eattr.topic then eattr.ref else _) + _ =
    _ + if t = attr.topic then attr.ref else _
  rw [hattr, heattr]
  by_cases ht : t = tokenTopic
  · subst ht
    simp only [if_true]
    omega
  · simp only [ht, if_false]

/-! ## Runs -/

/-- Every command but the deletion of a product is balanced. -/
theorem Command.refsBalanced {s s' : EdgeState} {c : Command} (hheld : s.AttrsHeld)
    (hcov : s.RefsCovered) (hexec : (c.exec s).val = some s')
    (hc : ∀ topic, c ≠ .delProduct topic) : EdgeState.RefsBalanced s s' := by
  cases c with
  | addProduct topic endian =>
      cases hexec
      exact EdgeState.refsBalanced_addPdt s topic endian
  | delProduct topic => exact absurd rfl (hc topic)
  | addPacketFormat pkt pktLen topic key size offset len =>
      rcases addG1Fmt_cases hexec with ⟨_, rfl⟩ | ⟨pdt, hget, _, rfl⟩
      · exact .refl _
      · have hkey : pdt.topic = topic := Registry.key_of_get hget
        exact EdgeState.refsBalanced_putPdt hget hkey fun t => rfl
  | delPacketFormat topic key =>
      cases hexec
      rcases delG1Fmt_cases s topic key with heq | ⟨pdt, fmt, hget, _, heq⟩
      · exact heq.symm ▸ .refl s
      · rw [heq]
        have hkey : (delG1FmtInternal pdt s.gAttrMap fmt).1.topic = topic := by
          obtain ⟨attrMap, hfst⟩ := delG1FmtInternal_fst pdt s.gAttrMap fmt
          rw [hfst]
          exact Registry.key_of_get hget
        have hrel := released_delG1FmtInternal (hheld.2 topic pdt hget) s.gAttrMap fmt
        exact EdgeState.refsBalanced_putPdt hget hkey (hrel.balanced (hcov.covered hget))
  | addFormatToken topic key tokenTopic type offset len =>
      cases hexec
      rcases addG1Token_cases s topic key tokenTopic type offset.toNat len.toNat with
        heq | ⟨pdt, fmt, tokens, attr, eattr, hget, _, _, _, _, _, _, hattr, href, heattr, heref,
          heq⟩
      · exact heq.symm ▸ .refl s
      · rw [heq]
        have hkey : pdt.topic = topic := Registry.key_of_get hget
        exact EdgeState.refsBalanced_putPdt hget hkey (balanced_addToken hattr href heattr heref)
  | delFormatToken topic key tokenTopic =>
      cases hexec
      rcases delG1Token_cases s topic key tokenTopic with
        ⟨heq, _⟩ | ⟨pdt, fmt, _, _, hget, _, heq⟩
      · exact heq.symm ▸ .refl s
      · rw [heq]
        have hkey : ((delPdtAttr pdt s.gAttrMap tokenTopic).1.putFmt
            (delG1TokenInternal fmt tokenTopic)).topic = topic := by
          rw [delPdtAttr_fst]
          exact Registry.key_of_get hget
        exact EdgeState.refsBalanced_putPdt hget hkey
          (balanced_delPdtAttr (hheld.2 topic pdt hget) (hcov.covered hget) tokenTopic)
  | addDevice addr len linkType module topic =>
      exact EdgeState.refsBalanced_of_sameConfig (EdgeState.sameConfig_addDevice hexec)
  | delDevice addr len linkType =>
      exact EdgeState.refsBalanced_of_sameConfig (EdgeState.sameConfig_delDevice hexec)

/-- Deleting a product can only lose references of the product. -/
theorem kept_refsCovered (env : Env) :
    Kept env fun s => s.AttrsHeld ∧ s.RefsCovered := by
  refine kept_of_sameConfig (fun hsame h => ⟨h.1.of_sameConfig hsame,
    (EdgeState.refsBalanced_of_sameConfig hsame).covered h.2⟩) ?_
  rintro s c s' ⟨hheld, hcov⟩ hexec
  refine ⟨(kept_attrsHeld env).command hheld hexec, ?_⟩
  by_cases hc : ∀ topic, c ≠ .delProduct topic
  · exact (Command.refsBalanced hheld hcov hexec hc).covered hcov
  · obtain ⟨topic, rfl⟩ := not_forall_not.mp hc
    obtain rfl : s.delPdt topic = s' := Option.some.inj hexec
    rcases delPdt_cases s topic with ⟨heq, _⟩ | ⟨pdt, hget, _⟩
    · exact heq.symm ▸ hcov
    · intro t
      have hdel := EdgeState.refs_delPdt hheld hcov hget t
      have ht := hcov t
      omega

theorem keptIff_globalRefs (env : Env) :
    KeptIff env EdgeState.AttrsHeld EdgeState.GlobalRefs KeepsGlobalRefs := by
  refine keptIff_of_sameConfig EdgeState.GlobalRefs.of_sameConfig ?_ ?_
  · intro s c s' hK hI hexec
    have hK' : s'.AttrsHeld := (kept_attrsHeld env).command hK hexec
    by_cases hc : ∀ topic, c ≠ .delProduct topic
    · have hrefs := (EdgeState.globalRefs_iff hK).mp hI
      have hcov : s.RefsCovered := fun t => (hrefs t).ge
      refine iff_of_true ?_ ?_
      · exact (EdgeState.globalRefs_iff hK').mpr
          ((Command.refsBalanced hK hcov hexec hc).refs_eq hrefs)
      · cases c with
        | delProduct topic => exact absurd rfl (hc topic)
        | _ => trivial
    · obtain ⟨topic, rfl⟩ := not_forall_not.mp hc
      cases hexec
      exact EdgeState.globalRefs_delPdt_iff hK hK' hI
  · intro s c stat
    cases c <;> exact Iff.rfl

theorem globalRefs_init (mac : List UInt8) (clock : ℕ → ℕ) :
    (EdgeState.init mac clock).GlobalRefs := by
  intro t
  simp [EdgeState.init, EdgeState.pdtRefs]

theorem refsCovered_init (mac : List UInt8) (clock : ℕ → ℕ) :
    (EdgeState.init mac clock).RefsCovered := by
  intro t
  simp [EdgeState.init, EdgeState.pdtRefs]

/-- In a run from the initial state the global references are those of the
products throughout, precisely when every product that is deleted has no more
references than tokens at that time. -/
theorem globalRefs_throughout_iff (env : Env) (mac : List UInt8) (clock : ℕ → ℕ)
    (es : List Event) :
    Throughout (EdgeState.step env) EdgeState.GlobalRefs (EdgeState.init mac clock) es ↔
      StepsMeet (EdgeState.step env) (fun s e => e.Meets KeepsGlobalRefs s)
        (EdgeState.init mac clock) es :=
  (keptIff_globalRefs env).throughout_iff (kept_attrsHeld env) (attrsHeld_init mac clock)
    (globalRefs_init mac clock) es

/-- The product whose format was added twice, deleted. -/
def deleteReplacedRun : List Command := replaceFormatRun ++ [.delProduct 5]

/-- No product is left, but an attribute is. -/
theorem globalRefs_fails_of_replaced_format :
    ¬ ∀ (env : Env) (mac : List UInt8) (clock : ℕ → ℕ) (cs : List Command) (s : EdgeState),
      run (EdgeState.step env) (EdgeState.init mac clock) (cs.map Event.command) = some s →
        s.GlobalRefs := by
  intro h
  have heval : ((run (EdgeState.step Env.plain) (EdgeState.init [] fun _ => 0)
      (deleteReplacedRun.map Event.command)).map fun s =>
        ((s.gAttrMap.get 1).isSome, s.pdtRefs 1)) = some (true, 0) := by
    decide +kernel
  obtain ⟨s, hrun, hcounts⟩ := Option.map_eq_some_iff.mp heval
  obtain ⟨hattr, hrefs⟩ := Prod.mk.inj hcounts
  have hpos := ((h Env.plain [] (fun _ => 0) deleteReplacedRun s hrun) 1).1.mp hattr
  omega

end EceLib
