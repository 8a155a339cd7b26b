import EceLib.HashMap.Counted

/-!
# References that are taken and given back

A map gained references over another one: the objects of the other map are
there with larger counts, and what is new has gained references only.  Taking a
reference and giving one back are inverse as long as the objects of the first
map are held, and a map that gained nothing is the first map.
-/

namespace EceLib

/-- Objects whose count can be set. -/
class Recounted (ν : Type) [Keyed UInt32 ν] [Counted ν] where
  withRef : ν → ℕ → ν
  key_withRef : ∀ v n, Keyed.key (withRef v n) = Keyed.key v
  ref_withRef : ∀ v n, Counted.ref (withRef v n) = n
  withRef_ref : ∀ v, withRef v (Counted.ref v) = v
  withRef_withRef : ∀ v n m, withRef (withRef v n) m = withRef v m

namespace Registry

open Recounted

variable {ν : Type} [Keyed UInt32 ν] [Counted ν] [Recounted ν]

/-- What is registered under a topic before and after it gained `n` references. -/
inductive GainedAt : Option ν → ℕ → Option ν → Prop where
  | held (v : ν) (n : ℕ) : GainedAt (some v) n (some (withRef v (Counted.ref v + n)))
  | absent : GainedAt none 0 none
  | fresh (v : ν) (h : Counted.ref v ≠ 0) : GainedAt none (Counted.ref v) (some v)

/-- The second map gained `n topic` references to each topic. -/
def Gained (r : Registry UInt32 ν) (n : UInt32 → ℕ) (r' : Registry UInt32 ν) : Prop :=
  ∀ topic, GainedAt (r.get topic) (n topic) (r'.get topic)

theorem gainedAt_zero_iff {old new : Option ν} : GainedAt old 0 new ↔ new = old := by
  constructor
  · intro h
    generalize hn : 0 = n at h
    cases h with
    | held v => rw [← hn, Nat.add_zero, withRef_ref]
    | absent => rfl
    | fresh v hne => exact absurd hn.symm hne
  · rintro rfl
    cases new with
    | none => exact .absent
    | some v =>
        have h := GainedAt.held v 0
        rwa [Nat.add_zero, withRef_ref] at h

/-- One more reference to an object that is registered. -/
theorem GainedAt.take {old : Option ν} {n : ℕ} {v : ν} (h : GainedAt old n (some v)) :
    GainedAt old (n + 1) (some (withRef v (Counted.ref v + 1))) := by
  cases h with
  | held v₀ =>
      rw [withRef_withRef, ref_withRef, Nat.add_assoc]
      exact .held v₀ (n + 1)
  | fresh v hne =>
      have hfresh := GainedAt.fresh (withRef v (Counted.ref v + 1)) (by simp [ref_withRef])
      rwa [ref_withRef] at hfresh

/-- The first reference to an object that is registered with it. -/
theorem GainedAt.create {old : Option ν} {n : ℕ} {v : ν} (h : GainedAt old n none)
    (hv : Counted.ref v = 0) :
    GainedAt old (n + 1) (some (withRef v (Counted.ref v + 1))) := by
  cases h with
  | absent =>
      have hfresh := GainedAt.fresh (withRef v (Counted.ref v + 1)) (by simp [ref_withRef])
      rw [ref_withRef, hv] at hfresh
      rwa [hv]

/-- A reference that was gained can be given back; the object goes with the last
one. -/
theorem GainedAt.giveBack {old new : Option ν} {n : ℕ}
    (hheld : ∀ v, old = some v → 0 < Counted.ref v) (h : GainedAt old (n + 1) new) :
    ∃ v, new = some v ∧ GainedAt old n
      (if Counted.ref v - 1 = 0 then none else some (withRef v (Counted.ref v - 1))) := by
  generalize hm : n + 1 = m at h
  cases h with
  | held v =>
      have hpos := hheld v rfl
      refine ⟨_, rfl, ?_⟩
      rw [ref_withRef, if_neg (by omega), withRef_withRef]
      have href : Counted.ref v + m - 1 = Counted.ref v + n := by omega
      rw [href]
      exact .held v n
  | absent => cases hm
  | fresh v hne =>
      refine ⟨v, rfl, ?_⟩
      by_cases hn : n = 0
      · subst hn
        rw [if_pos (by omega)]
        exact .absent
      · have href : Counted.ref v - 1 = n := by omega
        rw [href, if_neg hn]
        have hfresh := GainedAt.fresh (withRef v n) (by rwa [ref_withRef])
        rwa [ref_withRef] at hfresh

/-! ## Maps -/

theorem gained_zero_iff {r r' : Registry UInt32 ν} :
    Gained r (fun _ => 0) r' ↔ ∀ topic, r'.get topic = r.get topic :=
  forall_congr' fun _ => gainedAt_zero_iff

/-- A reference to `topic` is taken, on an object that is registered or new. -/
theorem Gained.take {r r' : Registry UInt32 ν} {n m : UInt32 → ℕ} (h : Gained r n r')
    {topic : UInt32} (hm : ∀ t, m t = n t + if t = topic then 1 else 0) {v : ν}
    (hkey : Keyed.key v = topic)
    (hv : r'.get topic = some v ∨ r'.get topic = none ∧ Counted.ref v = 0) :
    Gained r m (r'.put (withRef v (Counted.ref v + 1))) := by
  intro t
  rw [get_put, key_withRef, hkey, hm t]
  by_cases ht : t = topic
  · rw [if_pos ht, if_pos ht, ht]
    have hat := h topic
    rcases hv with hsome | ⟨hnone, hzero⟩
    · rw [hsome] at hat
      exact hat.take
    · rw [hnone] at hat
      exact hat.create hzero
  · rw [if_neg ht, if_neg ht]
    exact h t

/-- A reference to `topic` that was gained is given back. -/
theorem Gained.giveBack {r r' : Registry UInt32 ν} (hr : r.Held) {n m : UInt32 → ℕ}
    (h : Gained r n r') {topic : UInt32} (hn : ∀ t, n t = m t + if t = topic then 1 else 0) :
    ∃ v, r'.get topic = some v ∧ Gained r m
      (if Counted.ref v - 1 = 0 then r'.remove topic
        else r'.put (withRef v (Counted.ref v - 1))) := by
  have hat := h topic
  rw [hn topic, if_pos rfl] at hat
  obtain ⟨v, hv, hback⟩ := hat.giveBack fun v hv => (hr topic v hv).2
  refine ⟨v, hv, fun t => ?_⟩
  have hkey : Keyed.key v = topic := key_of_get hv
  by_cases ht : t = topic
  · subst ht
    by_cases hlast : Counted.ref v - 1 = 0
    · rw [if_pos hlast] at hback ⊢
      rwa [get_remove_self]
    · rw [if_neg hlast] at hback ⊢
      rwa [get_put, key_withRef, if_pos hkey.symm]
  · have hsame := h t
    rw [hn t, if_neg ht, Nat.add_zero] at hsame
    by_cases hlast : Counted.ref v - 1 = 0
    · rwa [if_pos hlast, get_remove_of_ne _ ht]
    · rwa [if_neg hlast, get_put, key_withRef, hkey, if_neg ht]

end Registry

end EceLib
