import EceLib.Edge.Format

/-!
# Products

The model of the product half of `src/pdt.c`.
-/

namespace EceLib

namespace EdgeState

/-- `add_pdt`.  A topic that is taken is refused; the topic `0` is not. -/
def addPdt (s : EdgeState) (topic endian : UInt32) : Option EdgePdt × EdgeState :=
  if s.gPdtMap.containsKey topic then (none, s)
  else
    let pdt : EdgePdt :=
      { topic := topic, endian := endian, serial := s.nextSerial, head := []
        attrMap := Registry.init 4 (by decide)
        fmtMap := Registry.init 4 (by decide) }
    (some pdt, { s with gPdtMap := s.gPdtMap.put pdt, nextSerial := s.nextSerial + 1 })

end EdgeState

/-- `hash_map_work(&pdt->fmt_map, hash_del_fmt)`. -/
def delFmts (pdt : EdgePdt) (g : Registry UInt32 EdgeAttr) :
    EdgePdt × Registry UInt32 EdgeAttr :=
  pdt.fmtMap.entries.foldl (fun st entry => delG1FmtInternal st.1 st.2 entry.2) (pdt, g)

namespace EdgeState

/-- `del_pdt`.  The loop over the devices of the product has no statements, so
the devices stay, with pointers to the product that is freed here. -/
def delPdt (s : EdgeState) (topic : UInt32) : EdgeState :=
  match s.getPdt topic with
  | none => s
  | some pdt =>
      let (_, g) := delFmts pdt s.gAttrMap
      { s with gPdtMap := s.gPdtMap.remove topic, gAttrMap := g }

end EdgeState

/-! ## What the operations do -/

theorem addPdt_cases (s : EdgeState) (topic endian : UInt32) :
    ((s.addPdt topic endian).2 = s ∧ ∃ pdt, s.gPdtMap.get topic = some pdt) ∨
      ∃ pdt : EdgePdt, s.gPdtMap.get topic = none ∧ pdt.topic = topic ∧
        pdt.serial = s.nextSerial ∧ pdt.head = [] ∧
        pdt.attrMap = Registry.init 4 (by decide) ∧
        pdt.fmtMap = Registry.init 4 (by decide) ∧
        (s.addPdt topic endian).2 =
          { s with gPdtMap := s.gPdtMap.put pdt, nextSerial := s.nextSerial + 1 } := by
  unfold EdgeState.addPdt
  rw [Registry.containsKey_eq]
  cases hget : s.gPdtMap.get topic with
  | none => exact Or.inr ⟨_, rfl, rfl, rfl, rfl, rfl, rfl, rfl⟩
  | some pdt => exact Or.inl ⟨rfl, pdt, rfl⟩

theorem delPdt_cases (s : EdgeState) (topic : UInt32) :
    (s.delPdt topic = s ∧ s.gPdtMap.get topic = none) ∨
      ∃ pdt : EdgePdt, s.gPdtMap.get topic = some pdt ∧
        s.delPdt topic =
          { s with gPdtMap := s.gPdtMap.remove topic
                   gAttrMap := (delFmts pdt s.gAttrMap).2 } := by
  unfold EdgeState.delPdt EdgeState.getPdt
  cases hget : s.gPdtMap.get topic with
  | none => exact Or.inl ⟨rfl, rfl⟩
  | some pdt => exact Or.inr ⟨pdt, rfl, rfl⟩

end EceLib
