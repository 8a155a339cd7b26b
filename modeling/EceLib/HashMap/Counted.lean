import EceLib.HashMap.Registry
import EceLib.HashMap.Keys

/-!
# Registries of counted objects

Both attribute maps, the global one and the one of a product, hold objects with
a reference count under a topic.  Topic `0` is never registered, an object is
created with its first reference and removed with its last, so what matters of
such a map is the count of every topic.
-/

namespace EceLib

class Counted (ν : Type) where
  ref : ν → ℕ

namespace Registry

variable {ν : Type} [Keyed UInt32 ν] [Counted ν]

/-- The references counted under a topic. -/
def refs (r : Registry UInt32 ν) (topic : UInt32) : ℕ :=
  match r.get topic with
  | none => 0
  | some v => Counted.ref v

/-- Every registered object is held by at least one reference and has a topic. -/
def Held (r : Registry UInt32 ν) : Prop :=
  ∀ topic v, r.get topic = some v → topic ≠ 0 ∧ 0 < Counted.ref v

theorem refs_of_some {r : Registry UInt32 ν} {topic : UInt32} {v : ν}
    (h : r.get topic = some v) : r.refs topic = Counted.ref v := by
  simp [refs, h]

theorem refs_of_none {r : Registry UInt32 ν} {topic : UInt32}
    (h : r.get topic = none) : r.refs topic = 0 := by
  simp [refs, h]

@[simp] theorem refs_init (capacity : ℕ) (h : 0 < capacity) (topic : UInt32) :
    (init capacity h : Registry UInt32 ν).refs topic = 0 := by
  simp [refs]

theorem refs_put (r : Registry UInt32 ν) (v : ν) (topic : UInt32) :
    (r.put v).refs topic = if topic = Keyed.key v then Counted.ref v else r.refs topic := by
  unfold refs
  rw [get_put]
  by_cases h : topic = Keyed.key v
  · simp [h]
  · simp [h]

theorem refs_remove (r : Registry UInt32 ν) (topic₀ topic : UInt32) :
    (r.remove topic₀).refs topic = if topic = topic₀ then 0 else r.refs topic := by
  unfold refs
  rw [get_remove]
  by_cases h : topic = topic₀
  · simp [h]
  · simp [h]

theorem held_init (capacity : ℕ) (h : 0 < capacity) :
    (init capacity h : Registry UInt32 ν).Held := by
  intro topic v hv
  simp at hv

theorem Held.put {r : Registry UInt32 ν} (hr : r.Held) {v : ν}
    (htopic : Keyed.key v ≠ 0) (hpos : 0 < Counted.ref v) : (r.put v).Held := by
  intro topic w hw
  rw [get_put] at hw
  by_cases h : topic = Keyed.key v
  · rw [if_pos h] at hw
    cases hw
    exact ⟨h ▸ htopic, hpos⟩
  · rw [if_neg h] at hw
    exact hr topic w hw

theorem Held.remove {r : Registry UInt32 ν} (hr : r.Held) (topic₀ : UInt32) :
    (r.remove topic₀).Held := by
  intro topic w hw
  rw [get_remove] at hw
  by_cases h : topic = topic₀
  · simp [h] at hw
  · rw [if_neg h] at hw
    exact hr topic w hw

/-- In a map whose objects are all held, a topic is registered exactly when it
has a reference. -/
theorem Held.isSome_iff {r : Registry UInt32 ν} (hr : r.Held) {topic : UInt32} :
    (r.get topic).isSome ↔ 0 < r.refs topic := by
  cases h : r.get topic with
  | none => simp [refs_of_none h]
  | some v =>
      have hpos := (hr topic v h).2
      simp [refs_of_some h, hpos]

theorem Held.get_eq_none_iff {r : Registry UInt32 ν} (hr : r.Held) {topic : UInt32} :
    r.get topic = none ↔ r.refs topic = 0 := by
  rw [← Option.not_isSome_iff_eq_none, hr.isSome_iff]
  omega

theorem Held.refs_zero {r : Registry UInt32 ν} (hr : r.Held) : r.refs 0 = 0 := by
  cases h : r.get 0 with
  | none => exact refs_of_none h
  | some v => exact absurd rfl (hr 0 v h).1

/-- In such a map the registered topics are those with a positive count `n`, and
are counted by it, exactly if the references are. -/
theorem Held.forall_refs_eq_iff {r : Registry UInt32 ν} (hr : r.Held) {n : UInt32 → ℕ} :
    (∀ topic, r.refs topic = n topic) ↔ ∀ topic,
      ((r.get topic).isSome ↔ 0 < n topic) ∧
        ∀ v, r.get topic = some v → Counted.ref v = n topic := by
  refine forall_congr' fun topic => ?_
  rw [hr.isSome_iff]
  cases hget : r.get topic with
  | none =>
      rw [refs_of_none hget]
      simp only [reduceCtorEq, false_implies, implies_true, and_true]
      omega
  | some v =>
      have hpos := (hr topic v hget).2
      rw [refs_of_some hget]
      simp only [Option.some.injEq, forall_eq']
      omega

end Registry

end EceLib
