import EceLib.HashMap.Held
import EceLib.Edge.Device
import EceLib.Edge.Product

/-!
# What is released with a device and with a product

The model of the walks of `__del_dev` and `del_pdt` over the nodes of a map,
with the attribute values of a device and the formats of a product as objects
that are allocated and freed.  An attribute value is only put in where there is
none of its topic.  A format that is added under a key that is taken takes the
place of the other one in the map, which is not freed then and is no entry of
the map any more.
-/

namespace EceLib

open Support

/-! ## The attribute values of a device -/

/-- `del_dev_attr_hash`. -/
def delDevAttrHash (st : ObjMap UInt32 AttrVal) (key : UInt32) (data : ℕ) :
    Option (ObjMap UInt32 AttrVal) :=
  st.release key data

/-- What `__del_dev` does with `attr_map`. -/
def delDevAttrs (st : ObjMap UInt32 AttrVal) : Option (ObjMap UInt32 AttrVal) := do
  let st ← NodeMap.work ObjMap.map delDevAttrHash st
  st.free

theorem releasesVisited_delDevAttrHash : ObjMap.ReleasesVisited id delDevAttrHash where
  call := fun h hget => by
    obtain ⟨st', -, hrelease, -⟩ := h.release hget
    exact ⟨st', hrelease, hrelease⟩
  frees := fun _ _ _ _ h => ObjMap.free_of_release h

/-! ## The formats of a product -/

/-- A product with its formats in memory, which are in `fmts` and not in the
`fmtMap` of `pdt`. -/
structure PdtMem where
  fmts : ObjMap UInt32 G1Fmt
  pdt : EdgePdt
  gAttrMap : Registry UInt32 EdgeAttr

namespace PdtMem

/-- `del_g1_fmt_internal`. -/
def delG1FmtInternal (s : PdtMem) (fmt : ℕ) : Option PdtMem := do
  let g1Fmt ← s.fmts.objs.read fmt
  let (pdt, g) := delTokenAttrs s.pdt s.gAttrMap g1Fmt.token
  let fmts ← s.fmts.release g1Fmt.key fmt
  some ⟨fmts, pdt, g⟩

/-- `hash_del_fmt`. -/
def hashDelFmt (s : PdtMem) (_key : UInt32) (data : ℕ) : Option PdtMem := s.delG1FmtInternal data

/-- `hash_map_work(&pdt->fmt_map, hash_del_fmt)`. -/
def delFmts (s : PdtMem) : Option PdtMem := NodeMap.work (fun s => s.fmts.map) hashDelFmt s

theorem delG1FmtInternal_eq {s : PdtMem} {p : ℕ} {fmt : G1Fmt}
    (hread : s.fmts.objs.read p = some fmt) :
    s.delG1FmtInternal p = (s.fmts.release fmt.key p).map fun fmts =>
      ⟨fmts, (delTokenAttrs s.pdt s.gAttrMap fmt.token).1,
        (delTokenAttrs s.pdt s.gAttrMap fmt.token).2⟩ := by
  rw [delG1FmtInternal, hread, Option.map_eq_bind]
  rfl

theorem releasesVisited_hashDelFmt : ObjMap.ReleasesVisited fmts hashDelFmt where
  call := fun {s hm k p} h hget => by
    obtain ⟨fmt, hread, rfl⟩ := h.object hget
    obtain ⟨st', -, hrelease, -⟩ := h.release hget
    have hcall := delG1FmtInternal_eq hread
    rw [show s.fmts.release fmt.key p = some st' from hrelease, Option.map_some] at hcall
    exact ⟨_, hcall, hrelease⟩
  frees := fun s k p s' h => by
    obtain ⟨fmt, hread, -⟩ := Option.bind_eq_some_iff.mp h
    rw [hashDelFmt, delG1FmtInternal_eq hread] at h
    obtain ⟨st', hrelease, rfl⟩ := Option.map_eq_some_iff.mp h
    exact ObjMap.free_of_release hrelease

end PdtMem

/-! ## The product in memory and the product as a value -/

/-- The product with other formats. -/
def EdgePdt.withFmts (pdt : EdgePdt) (fmtMap : Registry UInt32 G1Fmt) : EdgePdt :=
  { pdt with fmtMap := fmtMap }

theorem delPdtAttr_withFmts (pdt : EdgePdt) (fmtMap : Registry UInt32 G1Fmt)
    (g : Registry UInt32 EdgeAttr) (topic : UInt32) :
    delPdtAttr (pdt.withFmts fmtMap) g topic =
      ((delPdtAttr pdt g topic).1.withFmts fmtMap, (delPdtAttr pdt g topic).2) := by
  have hattrMap : (pdt.withFmts fmtMap).attrMap = pdt.attrMap := rfl
  rw [delPdtAttr, delPdtAttr, hattrMap]
  split
  · rfl
  · cases pdt.attrMap.get topic with
    | none => rfl
    | some attr => rfl

/-- Giving back references does not look at the formats. -/
theorem delTokenAttrs_withFmts (pdt : EdgePdt) (fmtMap : Registry UInt32 G1Fmt)
    (g : Registry UInt32 EdgeAttr) (tokens : List G1Token) :
    delTokenAttrs (pdt.withFmts fmtMap) g tokens =
      ((delTokenAttrs pdt g tokens).1.withFmts fmtMap, (delTokenAttrs pdt g tokens).2) := by
  induction tokens generalizing pdt g with
  | nil => rfl
  | cons token tokens ih =>
      rw [delTokenAttrs, delTokenAttrs, List.foldl_cons, List.foldl_cons, delPdtAttr_withFmts]
      exact ih (delPdtAttr pdt g token.topic).1 (delPdtAttr pdt g token.topic).2

namespace PdtMem

/-- The formats in memory are those of the product, and the rest is the same. -/
structure Stands (s : PdtMem) (pdt : EdgePdt) (g : Registry UInt32 EdgeAttr) : Prop where
  fmts : s.fmts.Holds pdt.fmtMap
  pdt_eq : s.pdt = pdt.withFmts s.pdt.fmtMap
  gAttrMap_eq : s.gAttrMap = g

/-- `del_g1_fmt_internal` on a format in memory and on the same format of the
product. -/
theorem Stands.hashDelFmt {s : PdtMem} {pdt : EdgePdt} {g : Registry UInt32 EdgeAttr}
    (h : s.Stands pdt g) {key : UInt32} {p : ℕ} {fmt : G1Fmt}
    (hpresent : s.fmts.map.get key = some (some p)) (hfmt : pdt.fmtMap.get key = some fmt) :
    ∃ s', s.hashDelFmt key p = some s' ∧
      s'.Stands (EceLib.delG1FmtInternal pdt g fmt).1 (EceLib.delG1FmtInternal pdt g fmt).2 := by
  have hkey : fmt.key = key := Registry.key_of_get hfmt
  have hread : s.fmts.objs.read p = some fmt := by rw [h.fmts.read_eq hpresent, hfmt]
  obtain ⟨st', hrelease, hholds⟩ := h.fmts.release hpresent
  have htokens := delTokenAttrs_withFmts pdt s.pdt.fmtMap g fmt.token
  rw [← h.pdt_eq, ← h.gAttrMap_eq] at htokens
  have hfmtMap : (EceLib.delG1FmtInternal pdt s.gAttrMap fmt).1.fmtMap = pdt.fmtMap.remove key := by
    obtain ⟨attrMap, hfst⟩ := delG1FmtInternal_fst pdt s.gAttrMap fmt
    rw [hfst, hkey]
  refine ⟨⟨st', (delTokenAttrs pdt s.gAttrMap fmt.token).1.withFmts s.pdt.fmtMap,
    (delTokenAttrs pdt s.gAttrMap fmt.token).2⟩, ?_, ?_⟩
  · rw [PdtMem.hashDelFmt, delG1FmtInternal_eq hread, hkey, hrelease, Option.map_some, htokens]
  · rw [← h.gAttrMap_eq]
    exact ⟨by rwa [hfmtMap], rfl, rfl⟩

/-- Some calls of `hash_del_fmt`, one for each of the formats `fs`. -/
theorem Stands.of_visits {es : List (UInt32 × ℕ)} {s s' : PdtMem}
    (hvisits : NodeMap.Visits (fun s => s.fmts.map) PdtMem.hashDelFmt es s s') {pdt : EdgePdt}
    {g : Registry UInt32 EdgeAttr} (h : s.Stands pdt g) {fs : List (UInt32 × G1Fmt)}
    (hkeys : es.map Prod.fst = fs.map Prod.fst) (hnodup : (fs.map Prod.fst).Nodup)
    (hfs : ∀ e ∈ fs, pdt.fmtMap.get e.1 = some e.2) :
    s'.Stands
      (fs.foldl (fun st e => EceLib.delG1FmtInternal st.1 st.2 e.2) (pdt, g)).1
      (fs.foldl (fun st e => EceLib.delG1FmtInternal st.1 st.2 e.2) (pdt, g)).2 := by
  induction hvisits generalizing pdt g fs with
  | nil s =>
      obtain rfl : fs = [] := List.map_eq_nil_iff.mp hkeys.symm
      exact h
  | @cons s s₁ s' k p es present call rest ih =>
      cases fs with
      | nil => cases hkeys
      | cons e fs =>
          obtain ⟨key, fmt⟩ := e
          obtain ⟨rfl, hkeys'⟩ := List.cons.inj hkeys
          obtain ⟨hnot, hnodup'⟩ := List.nodup_cons.mp hnodup
          have hfmt : pdt.fmtMap.get k = some fmt := hfs (k, fmt) List.mem_cons_self
          have hkey : fmt.key = k := Registry.key_of_get hfmt
          obtain ⟨s₂, hcall, h₂⟩ := h.hashDelFmt present hfmt
          obtain rfl : s₂ = s₁ := Option.some.inj (hcall.symm.trans call)
          obtain ⟨attrMap, hfst⟩ := delG1FmtInternal_fst pdt g fmt
          refine ih h₂ hkeys' hnodup' fun e he => ?_
          have hne : e.1 ≠ fmt.key := by
            intro heq
            refine hnot (List.mem_map.mpr ⟨e, he, ?_⟩)
            rw [heq, hkey]
          rw [hfst, Registry.get_remove_of_ne _ hne]
          exact hfs e (List.mem_cons_of_mem _ he)

/-- The walk of `del_pdt` over the nodes does to the product and to the global
attributes what the loop over the registry does. -/
theorem Stands.delFmts {s : PdtMem} {pdt : EdgePdt} {g : Registry UInt32 EdgeAttr}
    (h : s.Stands pdt g) :
    ∃ s', s.delFmts = some s' ∧ s'.Stands (EceLib.delFmts pdt g).1 (EceLib.delFmts pdt g).2 := by
  obtain ⟨hm, hown, hvals⟩ := h.fmts
  obtain ⟨s', -, honce, hvisits, -⟩ := ObjMap.Owns.walk releasesVisited_hashDelFmt hown
  exact ⟨s', honce.ends, Stands.of_visits hvisits h (ObjMap.keys_of_values hvals)
    (Registry.entries_nodup _) fun e he => Registry.mem_entries_iff.mp he⟩

/-- The format map of a new product has buckets. -/
theorem fmtMap_capacity_pos : 0 < 4 := by decide

/-- Whatever has been done with the formats of a product, `del_pdt` gives back
the references that it gives back on the registry. -/
theorem delFmts_of_calls (cs : List (ObjCall UInt32 G1Fmt)) (pdt : EdgePdt)
    (g : Registry UInt32 EdgeAttr) :
    ∃ fmts s', run ObjMap.step (ObjMap.init 4) cs = some fmts ∧
      delFmts ⟨fmts, pdt, g⟩ = some s' ∧
      s'.gAttrMap = (EceLib.delFmts
        (pdt.withFmts (cs.foldl Registry.call (Registry.init 4 fmtMap_capacity_pos))) g).2 := by
  obtain ⟨fmts, hrun, hholds⟩ := (ObjMap.holds_init fmtMap_capacity_pos).run cs
  have hstands : Stands ⟨fmts, pdt, g⟩
      (pdt.withFmts (cs.foldl Registry.call (Registry.init 4 fmtMap_capacity_pos))) g :=
    ⟨hholds, rfl, rfl⟩
  obtain ⟨s', hs', hstands'⟩ := hstands.delFmts
  exact ⟨fmts, s', hrun, hs', hstands'.gAttrMap_eq⟩

end PdtMem

/-! ## Everything is released -/

/-- `__del_dev` gets through the attributes of a device, one call for each, and
nothing is left of the values and of the nodes. -/
def AttrsReleased (st : ObjMap UInt32 AttrVal) : Prop :=
  ∃ st₁ st', NodeMap.VisitsOnce ObjMap.map delDevAttrHash st st₁ ∧ st.Released st₁ ∧
    delDevAttrs st = some st' ∧ (∀ p, st'.objs.read p = none) ∧ ∀ a, st'.map.heap.read a = none

theorem attrsReleased_of_store (xs : List AttrVal) :
    ∃ st, run ObjMap.step (ObjMap.init 16) (xs.map ObjCall.store) = some st ∧
      AttrsReleased st := by
  obtain ⟨st, hm, hrun, h⟩ := (ObjMap.ownsAll_init EdgeState.attrMap_capacity_pos).run xs
  obtain ⟨st₁, L, honce, -, hreleased, hL, hempty⟩ :=
    h.toOwns.walk releasesVisited_delDevAttrHash
  obtain ⟨st', hfree, hobjs, hheap⟩ := ObjMap.free_of_empty hL hempty
  have hends : NodeMap.work ObjMap.map delDevAttrHash st = some st₁ := honce.ends
  refine ⟨st, hrun, st₁, st', honce, hreleased, ?_, fun p => ?_, hheap⟩
  · rw [delDevAttrs, hends]
    exact hfree
  · rw [hobjs]
    exact h.read_of_released hreleased p

/-- `del_pdt` gets through the formats of a product, one call for each, and
frees them. -/
def FmtsReleased (s : PdtMem) : Prop :=
  ∃ s', NodeMap.VisitsOnce (fun s => s.fmts.map) PdtMem.hashDelFmt s s' ∧
    s.delFmts = some s' ∧ s.fmts.Released s'.fmts

theorem fmtsReleased_of_calls (cs : List (ObjCall UInt32 G1Fmt)) (pdt : EdgePdt)
    (g : Registry UInt32 EdgeAttr) :
    ∃ fmts, run ObjMap.step (ObjMap.init 4) cs = some fmts ∧ FmtsReleased ⟨fmts, pdt, g⟩ := by
  obtain ⟨fmts, hm, hrun, h⟩ := (ObjMap.owns_init PdtMem.fmtMap_capacity_pos).run cs
  obtain ⟨s', -, honce, -, hreleased, -⟩ :=
    ObjMap.Owns.walk (s := ⟨fmts, pdt, g⟩) PdtMem.releasesVisited_hashDelFmt h
  exact ⟨fmts, hrun, s', honce, honce.ends, hreleased⟩

/-- A walk whose callback takes out the entry it is called for makes one call for
each of the entries and leaves the map empty.  So the values of a device that is
deleted are all freed, and so are the formats in the map of a product. -/
theorem walks_release :
    (∀ {κ ν σ : Type} [HashKey κ] {map : σ → NodeMap κ ν} {loop : σ → κ → ν → Option σ}
      {I : σ → Prop}, NodeMap.RemovesVisited map loop I → ∀ {capacity : ℕ}, 0 < capacity →
      ∀ {cs : List (MapCall κ ν)} {s : σ},
        run NodeMap.step (NodeMap.init capacity) cs = some (map s) → I s →
        ∃ s', NodeMap.VisitsOnce map loop s s') ∧
    (∀ xs : List AttrVal, ∃ st,
      run ObjMap.step (ObjMap.init 16) (xs.map ObjCall.store) = some st ∧ AttrsReleased st) ∧
    (∀ (cs : List (ObjCall UInt32 G1Fmt)) (pdt : EdgePdt) (g : Registry UInt32 EdgeAttr),
      ∃ fmts, run ObjMap.step (ObjMap.init 4) cs = some fmts ∧ FmtsReleased ⟨fmts, pdt, g⟩) :=
  ⟨fun hloop _ hcapacity _ _ hrun hI => NodeMap.visitsOnce_of_run hloop hcapacity hrun hI,
    attrsReleased_of_store, fmtsReleased_of_calls⟩

theorem walks_release_two :
    ∃ m m' : NodeMap UInt32 ℕ,
      run NodeMap.step (NodeMap.init 16) [.put 1 10, .put 17 20] = some m ∧
        NodeMap.VisitsOnce id (fun m k _ => m.remove k) m m' := by
  have hdefined : (run NodeMap.step (NodeMap.init 16 : NodeMap UInt32 ℕ)
      [.put 1 10, .put 17 20]).isSome := by decide
  obtain ⟨m, hrun⟩ := Option.isSome_iff_exists.mp hdefined
  obtain ⟨hm, -, hrep, hwf⟩ := (NodeMap.represents_init 16).run
    (HashMap.wellFormed_init (by decide)) hrun
  obtain ⟨m', honce⟩ := walks_release.1 NodeMap.removesVisited_remove (by decide) hrun
    ⟨hm, hrep, hwf⟩
  exact ⟨m, m', hrun, honce⟩

end EceLib
