import EceLib.Edge.State
import EceLib.HashMap.Counted

/-!
# Attributes and the references to them

The model of `src/attr.c` and of the attribute half of `src/pdt.c`.  A product
counts in its own map how many tokens of its formats use a topic, and the
global map counts the references of all products.  The functions take the maps
they work on; the last section says what each does to the two counts.
-/

namespace EceLib

instance : Counted EdgeAttr := ⟨EdgeAttr.ref⟩

instance : Counted PdtAttr := ⟨PdtAttr.ref⟩

/-! ## `attr.c` -/

/-- `num_to_value`: `ntohs` and `ntohl` of what a little-endian host loads are
the value of the bytes in network order. -/
def numToValue (data : List UInt8) : ℕ :=
  match data with
  | [b] => b.toNat
  | [b₀, b₁] => 2 ^ 8 * b₀.toNat + b₁.toNat
  | [b₀, b₁, b₂, b₃] =>
      2 ^ 24 * b₀.toNat + 2 ^ 16 * b₁.toNat + 2 ^ 8 * b₂.toNat + b₃.toNat
  | _ => 0

def numToString (data : List UInt8) : String := toString (numToValue data)

/-- The `to_string` entries of `g_attr_operations_array`; strings have none. -/
def toStringOperation : EdgeAttrType → Option (List UInt8 → String)
  | .num => some numToString
  | .str => none

/-- The type a topic is registered with. -/
def attrType (g : Registry UInt32 EdgeAttr) (topic : UInt32) : Option EdgeAttrType :=
  (g.get topic).map EdgeAttr.type

/-- `add_attr`.  An attribute that is registered already keeps its type and
length and is only counted. -/
def addAttr (g : Registry UInt32 EdgeAttr) (topic type : UInt32) (len : ℕ) :
    Option EdgeAttr × Registry UInt32 EdgeAttr :=
  match EdgeAttrType.ofCode type with
  | none => (none, g)
  | some ty =>
      if topic = 0 ∨ len = 0 then (none, g)
      else
        let attr := (g.get topic).getD { topic := topic, type := ty, len := len, ref := 0 }
        let attr := { attr with ref := attr.ref + 1 }
        (some attr, g.put attr)

def delAttrRef (g : Registry UInt32 EdgeAttr) (topic : UInt32) (ref : ℕ) :
    Registry UInt32 EdgeAttr :=
  match g.get topic with
  | none => g
  | some attr =>
      let attr := { attr with ref := if attr.ref ≥ ref then attr.ref - ref else 0 }
      if attr.ref = 0 then g.remove topic else g.put attr

def delAttr (g : Registry UInt32 EdgeAttr) (topic : UInt32) : Registry UInt32 EdgeAttr :=
  delAttrRef g topic 1

/-! ## The attributes of a product -/

/-- `add_pdt_attr`, with the reference taken back when `add_attr` refuses. -/
def addPdtAttr (pdt : EdgePdt) (g : Registry UInt32 EdgeAttr)
    (topic type : UInt32) (len : ℕ) :
    Option EdgeAttr × EdgePdt × Registry UInt32 EdgeAttr :=
  if topic = 0 ∨ EdgeAttrType.ofCode type = none ∨ len = 0 then (none, pdt, g)
  else
    let attr := (pdt.attrMap.get topic).getD { topic := topic, ref := 0 }
    let attr := { attr with ref := attr.ref + 1 }
    let attrMap := pdt.attrMap.put attr
    match addAttr g topic type len with
    | (some eattr, g) => (some eattr, { pdt with attrMap := attrMap }, g)
    | (none, g) =>
        let attr := { attr with ref := attr.ref - 1 }
        let attrMap := if attr.ref = 0 then attrMap.remove topic else attrMap.put attr
        (none, { pdt with attrMap := attrMap }, g)

/-- `del_pdt_attr`. -/
def delPdtAttr (pdt : EdgePdt) (g : Registry UInt32 EdgeAttr) (topic : UInt32) :
    EdgePdt × Registry UInt32 EdgeAttr :=
  if topic = 0 then (pdt, g)
  else
    match pdt.attrMap.get topic with
    | none => (pdt, g)
    | some attr =>
        let attr := { attr with ref := attr.ref - 1 }
        let attrMap :=
          if attr.ref = 0 then pdt.attrMap.remove topic else pdt.attrMap.put attr
        ({ pdt with attrMap := attrMap }, delAttr g topic)

/-! ## What they do to the counts -/

/-- An attribute of a proper topic, type and length is registered or counted
once more. -/
theorem addAttr_of_valid {g : Registry UInt32 EdgeAttr} {topic type : UInt32} {len : ℕ}
    (htopic : topic ≠ 0) (htype : EdgeAttrType.ofCode type ≠ none) (hlen : len ≠ 0) :
    ∃ attr : EdgeAttr, attr.topic = topic ∧ attr.ref = g.refs topic + 1 ∧
      addAttr g topic type len = (some attr, g.put attr) := by
  obtain ⟨ty, hty⟩ := Option.ne_none_iff_exists'.mp htype
  unfold addAttr
  rw [hty]
  simp only [htopic, hlen, or_self, if_false]
  cases hget : g.get topic with
  | none =>
      refine ⟨{ topic := topic, type := ty, len := len, ref := 1 }, rfl, ?_, rfl⟩
      simp [Registry.refs_of_none hget]
  | some attr =>
      refine ⟨{ attr with ref := attr.ref + 1 }, Registry.key_of_get hget, ?_, rfl⟩
      simp [Registry.refs_of_some hget, Counted.ref]

theorem delAttr_of_none {g : Registry UInt32 EdgeAttr} {topic : UInt32}
    (h : g.get topic = none) : delAttr g topic = g := by
  simp [delAttr, delAttrRef, h]

theorem delAttr_of_some {g : Registry UInt32 EdgeAttr} {topic : UInt32} {attr : EdgeAttr}
    (h : g.get topic = some attr) :
    delAttr g topic =
      if attr.ref - 1 = 0 then g.remove topic
      else g.put { attr with ref := attr.ref - 1 } := by
  have href : (if attr.ref ≥ 1 then attr.ref - 1 else 0) = attr.ref - 1 := by
    split <;> omega
  simp only [delAttr, delAttrRef, h, href]

theorem refs_delAttr (g : Registry UInt32 EdgeAttr) (topic t : UInt32) :
    (delAttr g topic).refs t = g.refs t - if t = topic then 1 else 0 := by
  cases hget : g.get topic with
  | none =>
      rw [delAttr_of_none hget]
      by_cases h : t = topic
      · simp [h, Registry.refs_of_none hget]
      · simp [h]
  | some attr =>
      have hkey : attr.topic = topic := Registry.key_of_get hget
      have href := Registry.refs_of_some hget
      rw [delAttr_of_some hget]
      by_cases hzero : attr.ref - 1 = 0
      · rw [if_pos hzero, Registry.refs_remove]
        by_cases h : t = topic
        · simp only [h, if_true, href, Counted.ref]
          omega
        · simp [h]
      · rw [if_neg hzero, Registry.refs_put]
        by_cases h : t = topic
        · simp [h, Keyed.key, hkey, href, Counted.ref]
        · simp [h, Keyed.key, hkey]

theorem held_delAttr {g : Registry UInt32 EdgeAttr} (hg : g.Held) (topic : UInt32) :
    (delAttr g topic).Held := by
  cases hget : g.get topic with
  | none =>
      rw [delAttr_of_none hget]
      exact hg
  | some attr =>
      have hkey : attr.topic = topic := Registry.key_of_get hget
      rw [delAttr_of_some hget]
      split
      · exact hg.remove topic
      · refine hg.put ?_ ?_
        · change attr.topic ≠ 0
          rw [hkey]
          exact (hg topic attr hget).1
        · change 0 < attr.ref - 1
          omega

/-- `add_pdt_attr` refuses exactly the arguments `add_attr` refuses, so the
branch that takes the reference back is never run. -/
theorem addPdtAttr_of_invalid {pdt : EdgePdt} {g : Registry UInt32 EdgeAttr}
    {topic type : UInt32} {len : ℕ}
    (h : topic = 0 ∨ EdgeAttrType.ofCode type = none ∨ len = 0) :
    addPdtAttr pdt g topic type len = (none, pdt, g) := by
  rw [addPdtAttr, if_pos h]

theorem addPdtAttr_of_valid (pdt : EdgePdt) (g : Registry UInt32 EdgeAttr)
    {topic type : UInt32} {len : ℕ}
    (htopic : topic ≠ 0) (htype : EdgeAttrType.ofCode type ≠ none) (hlen : len ≠ 0) :
    ∃ (attr : PdtAttr) (eattr : EdgeAttr),
      attr.topic = topic ∧ attr.ref = pdt.attrMap.refs topic + 1 ∧
      eattr.topic = topic ∧ eattr.ref = g.refs topic + 1 ∧
      addPdtAttr pdt g topic type len =
        (some eattr, { pdt with attrMap := pdt.attrMap.put attr }, g.put eattr) := by
  obtain ⟨eattr, hetopic, heref, hadd⟩ := addAttr_of_valid (g := g) htopic htype hlen
  unfold addPdtAttr
  rw [hadd, if_neg (by simp [htopic, htype, hlen])]
  cases hget : pdt.attrMap.get topic with
  | none =>
      refine ⟨{ topic := topic, ref := 1 }, eattr, rfl, ?_, hetopic, heref, rfl⟩
      simp [Registry.refs_of_none hget]
  | some attr =>
      refine ⟨{ attr with ref := attr.ref + 1 }, eattr, Registry.key_of_get hget, ?_,
        hetopic, heref, rfl⟩
      simp [Registry.refs_of_some hget, Counted.ref]

/-- `del_pdt_attr` touches nothing of the product but its attribute map. -/
theorem delPdtAttr_fst (pdt : EdgePdt) (g : Registry UInt32 EdgeAttr) (topic : UInt32) :
    (delPdtAttr pdt g topic).1 =
      { pdt with attrMap := (delPdtAttr pdt g topic).1.attrMap } := by
  unfold delPdtAttr
  split
  · rfl
  · split <;> rfl

/-- `del_pdt_attr` takes one reference from the product, if it has one. -/
theorem refs_delPdtAttr {pdt : EdgePdt} (hpdt : pdt.attrMap.Held)
    (g : Registry UInt32 EdgeAttr) (topic t : UInt32) :
    (delPdtAttr pdt g topic).1.attrMap.refs t =
      pdt.attrMap.refs t - if t = topic then 1 else 0 := by
  unfold delPdtAttr
  by_cases h0 : topic = 0
  · rw [if_pos h0]
    by_cases h : t = topic
    · rw [h, h0, hpdt.refs_zero, Nat.zero_sub]
    · simp [h]
  · rw [if_neg h0]
    cases hget : pdt.attrMap.get topic with
    | none =>
        by_cases h : t = topic
        · simp [h, Registry.refs_of_none hget]
        · simp [h]
    | some attr =>
        have hkey : attr.topic = topic := Registry.key_of_get hget
        have href := Registry.refs_of_some hget
        by_cases hzero : attr.ref - 1 = 0
        · simp only [hzero, if_true, Registry.refs_remove]
          by_cases h : t = topic
          · simp only [h, if_true, href, Counted.ref]
            omega
          · simp [h]
        · simp only [hzero, if_false, Registry.refs_put, Keyed.key, hkey]
          by_cases h : t = topic
          · simp only [h, if_true, href, Counted.ref]
          · simp [h]

theorem held_delPdtAttr {pdt : EdgePdt} (hpdt : pdt.attrMap.Held)
    (g : Registry UInt32 EdgeAttr) (topic : UInt32) :
    (delPdtAttr pdt g topic).1.attrMap.Held := by
  unfold delPdtAttr
  split
  · exact hpdt
  · cases hget : pdt.attrMap.get topic with
    | none => exact hpdt
    | some attr =>
        have hkey : attr.topic = topic := Registry.key_of_get hget
        dsimp only
        split
        · exact hpdt.remove topic
        · refine hpdt.put ?_ ?_
          · change attr.topic ≠ 0
            rw [hkey]
            exact (hpdt topic attr hget).1
          · change 0 < attr.ref - 1
            omega

/-- The reference `del_pdt_attr` takes from the product it also takes from the
global map. -/
theorem refs_delPdtAttr_global {pdt : EdgePdt} (hpdt : pdt.attrMap.Held)
    (g : Registry UInt32 EdgeAttr) (topic t : UInt32) :
    (delPdtAttr pdt g topic).2.refs t =
      g.refs t - if t = topic ∧ 0 < pdt.attrMap.refs topic then 1 else 0 := by
  unfold delPdtAttr
  by_cases h0 : topic = 0
  · rw [if_pos h0, h0, hpdt.refs_zero]
    simp
  · rw [if_neg h0]
    cases hget : pdt.attrMap.get topic with
    | none => simp [Registry.refs_of_none hget]
    | some attr =>
        have hpos := (hpdt topic attr hget).2
        have href := Registry.refs_of_some hget
        rw [refs_delAttr]
        by_cases h : t = topic
        · simp [h, href, hpos]
        · simp [h]

theorem held_delPdtAttr_global {g : Registry UInt32 EdgeAttr} (hg : g.Held)
    (pdt : EdgePdt) (topic : UInt32) : (delPdtAttr pdt g topic).2.Held := by
  unfold delPdtAttr
  split
  · exact hg
  · split
    · exact hg
    · exact held_delAttr hg topic

end EceLib
