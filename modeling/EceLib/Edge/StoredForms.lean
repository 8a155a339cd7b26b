import EceLib.Edge.Decoding

/-!
# The forms of a stored value

An attribute is stored as bytes, with their number, and as a text.  An update
renews the text and the time of the change only where the bytes differ from as
many of the bytes that are stored, and of a new attribute from bytes `0xFF`.
This compares neither the lengths nor the text.
-/

namespace EceLib

open Support

/-! ## Calls of `upt_dev_attr` -/

/-- The arguments of a call. -/
structure AttrCall where
  topic : UInt32
  data : List UInt8

/-- Up to 32 bytes for a number that is registered. -/
structure AttrCall.Valid (c : AttrCall) (g : Registry UInt32 EdgeAttr) : Prop where
  topic : c.topic ≠ 0
  number : ∃ ea, g.get c.topic = some ea ∧ ea.type = .num
  nonempty : c.data.length ≠ 0
  fits : c.data.length ≤ maxDeviceAttributeLen

/-- One call, on a device and the state around it. -/
def uptStep (p : EdgeState × Dev) (c : AttrCall) : Option (EdgeState × Dev) :=
  (p.1.uptDevAttr p.2 c.topic c.data).val.map Prod.snd

/-- The attribute is new, or its length or bytes are not those of the call. -/
def AttrCall.Differs (c : AttrCall) (dev : Dev) : Prop :=
  ∀ old, dev.attrMap.get c.topic = some old →
    (old.len, old.mem.front old.len) ≠ (c.data.length, c.data)

/-- The last reading of the clock in the call: the second one, where an attribute
is created with a value that is compared to be new. -/
def AttrCall.time (c : AttrCall) (s : EdgeState) (dev : Dev) : ℕ :=
  if dev.attrMap.get c.topic = none ∧ (dev.vals c.topic).front c.data.length ≠ c.data then
    s.clock 1
  else s.now

/-- What is stored is the value of the call, and a change has the time of the
call. -/
structure AttrCall.FormsHold (c : AttrCall) (s : EdgeState) (dev : Dev) (attr : AttrVal)
    (dev' : Dev) : Prop where
  stored : dev'.attrMap.get c.topic = some attr
  len : attr.len = c.data.length
  bytes : attr.mem.front attr.len = c.data
  text : attr.str = numToString c.data
  noticed : c.Differs dev → dev'.updateTs = c.time s dev

def FormsFollow (p : EdgeState × Dev) (c : AttrCall) : Prop :=
  ∃ attr s' dev', (p.1.uptDevAttr p.2 c.topic c.data).val = some (some attr, s', dev') ∧
    c.FormsHold p.1 p.2 attr dev'

/-- The bytes are compared to be new.  Or else the attribute is there with their
text, and their number is the same or the last change is of this time. -/
def FormsStand (p : EdgeState × Dev) (c : AttrCall) : Prop :=
  (p.2.vals c.topic).front c.data.length = c.data →
    ∃ old, p.2.attrMap.get c.topic = some old ∧ old.str = numToString c.data ∧
      (old.len = c.data.length ∨ p.2.updateTs = p.1.now)

instance (p : EdgeState × Dev) (c : AttrCall) : Decidable (FormsStand p c) :=
  decidable_of_iff
    ((p.2.vals c.topic).front c.data.length = c.data →
      (p.2.attrMap.get c.topic).any fun old => decide (old.str = numToString c.data ∧
        (old.len = c.data.length ∨ p.2.updateTs = p.1.now)))
    (by simp only [FormsStand, Option.any_eq_true, decide_eq_true_eq])

/-! ## One call -/

theorem numToString_ne_empty (data : List UInt8) : numToString data ≠ "" :=
  toString_ne_empty (numToValue data)

theorem Dev.vals_of_get {dev : Dev} {topic : UInt32} {old : AttrVal}
    (h : dev.attrMap.get topic = some old) : dev.vals topic = old.mem := by
  rw [Dev.vals, Dev.attrBefore, h]
  rfl

/-- A call that is valid comes to its end. -/
theorem AttrCall.Valid.exists_upt {c : AttrCall} {s : EdgeState} (h : c.Valid s.gAttrMap)
    (dev : Dev) :
    ∃ v u k, Upt s dev c.topic c.data v u k ∧
      (s.uptDevAttr dev c.topic c.data).val = some (some v, s.advance k,
        { dev with ts := s.now, updateTs := u, attrMap := dev.attrMap.put v }) := by
  have hstorable : ValueStorable s.gAttrMap c.topic (dev.vals c.topic) c.data := by
    refine ⟨h.fits.trans (by decide), fun _ ea hea => ?_⟩
    obtain ⟨ea', hea', hnum⟩ := h.number
    obtain rfl := Option.some.inj (hea'.symm.trans hea)
    rw [hnum]
    rfl
  obtain ⟨⟨attr, s', dev'⟩, hval⟩ := Option.isSome_iff_exists.mp
    ((EdgeState.isSome_uptDevAttr h.topic h.nonempty).mpr hstorable)
  rcases EdgeState.uptDevAttr_cases hval with
    ⟨_, _, _, hzero | hzero⟩ | ⟨v, u, k, rfl, hu, _, _, _, rfl, rfl⟩
  · exact absurd hzero h.topic
  · exact absurd hzero h.nonempty
  · exact ⟨v, u, k, hu, hval⟩

/-- The bytes of a number that was set are in front of its text. -/
theorem AttrMem.front_set_num {mem : AttrMem} {data : List UInt8}
    (h : data.length ≤ maxDeviceAttributeLen) :
    (mem.set (some .num) data).front data.length = data := by
  change ((mem.write 0 data).write _ _).front _ = data
  rw [Block.front_write_of_le _ _ h]
  exact Block.front_write (h.trans (by decide))

/-- After a call that finds a change everything is renewed. -/
theorem AttrCall.Valid.formsHold_of_ne {c : AttrCall} {s : EdgeState} (h : c.Valid s.gAttrMap)
    {dev : Dev} (hne : (dev.vals c.topic).front c.data.length ≠ c.data) {v : AttrVal} {u k : ℕ}
    (hu : Upt s dev c.topic c.data v u k) :
    v.len = c.data.length ∧ v.mem.front v.len = c.data ∧ v.str = numToString c.data ∧
      u = c.time s dev := by
  obtain ⟨ea, hea, hnum⟩ := h.number
  have htype : attrType s.gAttrMap c.topic = some .num := by
    rw [attrType, hea, Option.map_some, hnum]
  have hmem : v.mem = (dev.vals c.topic).set (some .num) c.data := by
    rw [hu.mem_eq, Block.update_of_front_ne hne, htype]
  have hbytes : v.mem.front v.len = c.data := by
    rw [hu.len_eq, hmem]
    exact AttrMem.front_set_num h.fits
  refine ⟨hu.len_eq, hbytes, AttrVal.str_of_set hmem, ?_⟩
  cases hu with
  | same hsame => exact absurd hsame hne
  | changed hold =>
      refine (if_neg fun hand => ?_).symm
      rw [hold] at hand
      cases hand.1
  | first hnone => exact (if_pos ⟨hnone, hne⟩).symm

/-- A call that finds no change leaves the text and the time as they are. -/
theorem formsHold_same_iff {c : AttrCall} {s : EdgeState} {dev dev' : Dev} {v : AttrVal}
    (hsame : (dev.vals c.topic).front c.data.length = c.data)
    (hv : v = { dev.attrBefore c.topic with len := c.data.length })
    (hstored : dev'.attrMap.get c.topic = some v) (htime : dev'.updateTs = dev.updateTs) :
    c.FormsHold s dev v dev' ↔ FormsStand (s, dev) c := by
  subst hv
  cases hget : dev.attrMap.get c.topic with
  | none =>
      -- the text of a new attribute is empty
      have hempty : (dev.attrBefore c.topic).str = "" := by
        simp only [Dev.attrBefore, hget, Option.getD_none]
        rfl
      constructor
      · intro h
        exact absurd (h.text.symm.trans hempty) (numToString_ne_empty c.data)
      · intro h
        obtain ⟨old, hold, _⟩ := h hsame
        cases hget.symm.trans hold
  | some old =>
      have hbefore : dev.attrBefore c.topic = old := by simp [Dev.attrBefore, hget]
      rw [Dev.vals_of_get hget] at hsame
      have hdiffers : c.Differs dev ↔ old.len ≠ c.data.length := by
        constructor
        · intro h hlen
          exact h old hget (by rw [hlen, hsame])
        · intro hlen old' hold' heq
          obtain rfl := Option.some.inj (hget.symm.trans hold')
          exact hlen (Prod.mk.inj heq).1
      have hnow : c.time s dev = s.now := if_neg fun hand => by
        rw [hget] at hand
        cases hand.1
      constructor
      · intro h _
        refine ⟨old, hget, (congrArg AttrVal.str hbefore).symm.trans h.text, ?_⟩
        by_cases hlen : old.len = c.data.length
        · exact Or.inl hlen
        · exact Or.inr (htime.symm.trans ((h.noticed (hdiffers.mpr hlen)).trans hnow))
      · intro h
        obtain ⟨old', hold', htext, hrest⟩ := h (by rw [Dev.vals_of_get hget, hsame])
        obtain rfl := Option.some.inj (hget.symm.trans hold')
        refine ⟨hstored, rfl, ?_, (congrArg AttrVal.str hbefore).trans htext, fun hdiff => ?_⟩
        · rw [hbefore]
          exact hsame
        · rw [htime, hnow]
          exact hrest.resolve_left (hdiffers.mp hdiff)

/-- One call stores its value in all forms precisely if the comparison finds a
change or there is nothing to renew. -/
theorem formsFollow_call_iff {c : AttrCall} {s : EdgeState} {dev : Dev}
    (hvalid : c.Valid s.gAttrMap) :
    FormsFollow (s, dev) c ↔ FormsStand (s, dev) c := by
  obtain ⟨v, u, k, hu, hval⟩ := hvalid.exists_upt dev
  have hput : (dev.attrMap.put v).get c.topic = some v := by
    rw [Registry.get_put]
    exact if_pos hu.topic_eq.symm
  have hfollow : FormsFollow (s, dev) c ↔ c.FormsHold s dev v
      { dev with ts := s.now, updateTs := u, attrMap := dev.attrMap.put v } := by
    constructor
    · rintro ⟨attr, s', dev', heq, hforms⟩
      cases hval.symm.trans heq
      exact hforms
    · exact fun hforms => ⟨v, _, _, hval, hforms⟩
  rw [hfollow]
  by_cases hsame : (dev.vals c.topic).front c.data.length = c.data
  · cases hu with
    | same _ => exact formsHold_same_iff hsame rfl hput rfl
    | changed hold hne _ => exact absurd (Dev.vals_of_get hold ▸ hsame) hne
    | first _ hne _ => exact absurd hsame hne
  · obtain ⟨hlen, hbytes, htext, htime⟩ := hvalid.formsHold_of_ne hsame hu
    exact iff_of_true ⟨hput, hlen, hbytes, htext, fun _ => htime⟩ fun h => absurd h hsame

/-! ## Sequences of calls -/

/-- After each call of a sequence all forms are those of its value, precisely if
each finds a change or has nothing to renew. -/
theorem formsFollow_iff (s : EdgeState) (dev : Dev) {calls : List AttrCall}
    (hvalid : ∀ c ∈ calls, c.Valid s.gAttrMap) :
    EveryStep uptStep FormsFollow (s, dev) calls ↔ EveryStep uptStep FormsStand (s, dev) calls := by
  have hkept : ∀ (p : EdgeState × Dev) (c : AttrCall) (p' : EdgeState × Dev),
      p.1.gAttrMap = s.gAttrMap → c.Valid s.gAttrMap → uptStep p c = some p' →
      p'.1.gAttrMap = s.gAttrMap := by
    rintro ⟨s₁, dev₁⟩ c p' hattr hc hstep
    have hc₁ : c.Valid s₁.gAttrMap := hattr ▸ hc
    obtain ⟨v, u, k, hu, hval⟩ := hc₁.exists_upt dev₁
    rw [uptStep, hval] at hstep
    cases hstep
    exact hattr
  refine everyStep_iff hkept ?_ rfl hvalid
  rintro ⟨s₁, dev₁⟩ c hattr hc
  exact formsFollow_call_iff (hattr ▸ hc)

/-- A number of one byte is registered. -/
def numberState : EdgeState :=
  { EdgeState.init [] (fun _ => 0) with
    gAttrMap := (addAttr (EdgeState.init [] fun _ => 0).gAttrMap 1 0 1).2 }

def noValuesDev : Dev where
  oid := oidOf 0 []
  module := 0
  attrMap := Registry.init 16 EdgeState.attrMap_capacity_pos
  ts := 0
  updateTs := 0
  reportTs := 0
  pdt := ⟨5, 0⟩

theorem get_numberState : numberState.gAttrMap.get 1 = some ⟨1, .num, 1, 1⟩ := rfl

theorem valid_numberState {data : List UInt8} (hnonempty : data.length ≠ 0)
    (hfits : data.length ≤ maxDeviceAttributeLen) :
    (AttrCall.mk 1 data).Valid numberState.gAttrMap where
  topic := (by decide : (1 : UInt32) ≠ 0)
  number := ⟨_, get_numberState, rfl⟩
  nonempty := hnonempty
  fits := hfits

/-- Two values one after the other. -/
theorem formsFollow_of_two :
    EveryStep uptStep FormsFollow (numberState, noValuesDev) [⟨1, [1]⟩, ⟨1, [2, 3]⟩] :=
  (formsFollow_iff numberState noValuesDev (by
    simp only [List.forall_mem_cons, List.not_mem_nil, false_imp_iff, implies_true, and_true]
    exact ⟨valid_numberState (by decide) (by decide), valid_numberState (by decide)
      (by decide)⟩)).mpr (by decide +kernel)

/-- A first value of `0xFF` gets no text. -/
theorem formsFollow_fails_of_first :
    ¬ ∀ (s : EdgeState) (dev : Dev) (calls : List AttrCall),
      (∀ c ∈ calls, c.Valid s.gAttrMap) → EveryStep uptStep FormsFollow (s, dev) calls := by
  intro h
  have hcalls := h numberState noValuesDev [⟨1, [0xFF]⟩]
    (List.forall_mem_singleton.mpr (valid_numberState (by decide) (by decide)))
  have hstands := (formsFollow_call_iff (valid_numberState (by decide) (by decide))).mp hcalls.1
  obtain ⟨old, hold, _⟩ := hstands rfl
  cases hold

end EceLib
