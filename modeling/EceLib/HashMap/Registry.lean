import EceLib.HashMap.Table
import Mathlib.Algebra.BigOperators.Group.List.Basic
import Mathlib.Algebra.Order.Ring.Nat

/-!
# Registries

Every map of the program stores objects under a key that is a field of the
object: the key pointer handed to `hash_map_put` points into the value.  A
`Registry` is a hash map that was built that way, with the proof that it is
well formed and that each object sits under its own key, so that the lookups,
updates and removals below need no side condition.
-/

namespace EceLib

/-- The field of an object under which the program registers it. -/
class Keyed (κ : outParam Type) (ν : Type) where
  key : ν → κ

structure Registry (κ ν : Type) [HashKey κ] [Keyed κ ν] where
  map : HashMap κ ν
  wellFormed : map.WellFormed
  keyed : ∀ p ∈ map.entries, Keyed.key p.2 = p.1

namespace Registry

variable {κ ν : Type} [HashKey κ] [Keyed κ ν]

def init (capacity : ℕ) (h : 0 < capacity) : Registry κ ν where
  map := HashMap.init capacity
  wellFormed := HashMap.wellFormed_init h
  keyed := by simp [HashMap.entries, HashMap.init]

def get (r : Registry κ ν) (key : κ) : Option ν := r.map.get key

def containsKey (r : Registry κ ν) (key : κ) : Bool := r.map.containsKey key

/-- The registered objects with their keys, in the order of `hash_map_work`. -/
def entries (r : Registry κ ν) : List (κ × ν) := r.map.entries

theorem mem_entries_iff {r : Registry κ ν} {key : κ} {v : ν} :
    (key, v) ∈ r.entries ↔ r.get key = some v :=
  r.wellFormed.get_eq_some_iff.symm

theorem key_of_get {r : Registry κ ν} {key : κ} {v : ν} (h : r.get key = some v) :
    Keyed.key v = key :=
  r.keyed (key, v) (mem_entries_iff.mpr h)

private theorem mem_entries_put {r : Registry κ ν} {v : ν} {p : κ × ν}
    (hp : p ∈ (r.map.put (Keyed.key v) v).entries) :
    p = (Keyed.key v, v) ∨ p ∈ r.entries := by
  cases hget : r.map.get (Keyed.key v) with
  | none =>
      have hperm := r.wellFormed.entries_put_of_none v hget
      exact List.mem_cons.mp (hperm.mem_iff.mp hp)
  | some old =>
      obtain ⟨m, -, -, hold, hput⟩ := r.wellFormed.remove_of_get hget
      rcases List.mem_cons.mp ((hput v).mem_iff.mp hp) with heq | hrest
      · exact Or.inl heq
      · exact Or.inr (hold.mem_iff.mpr (List.mem_cons_of_mem _ hrest))

/-- Register an object, over the one that has its key if there is one. -/
def put (r : Registry κ ν) (v : ν) : Registry κ ν where
  map := r.map.put (Keyed.key v) v
  wellFormed := r.wellFormed.put _ v
  keyed := by
    intro p hp
    rcases mem_entries_put hp with rfl | hold
    · rfl
    · exact r.keyed p hold

private theorem of_remove {r : Registry κ ν} {key : κ} {m : HashMap κ ν}
    (h : r.map.remove key = some m) :
    m.WellFormed ∧ ∀ p ∈ m.entries, p ∈ r.entries := by
  cases hget : r.map.get key with
  | none =>
      obtain rfl := HashMap.eq_of_remove hget h
      exact ⟨r.wellFormed, fun p hp => hp⟩
  | some v =>
      obtain ⟨m', hm', hwf, hperm, -⟩ := r.wellFormed.remove_of_get hget
      obtain rfl : m' = m := Option.some.inj (hm'.symm.trans h)
      exact ⟨hwf, fun p hp => hperm.mem_iff.mpr (List.mem_cons_of_mem _ hp)⟩

/-- `hash_map_remove`.  Its null dereference is not reached: every caller has
just looked the key up (`remove_isSome`). -/
def remove (r : Registry κ ν) (key : κ) : Registry κ ν :=
  match h : r.map.remove key with
  | none => r
  | some m =>
      { map := m
        wellFormed := (of_remove h).1
        keyed := fun p hp => r.keyed p ((of_remove h).2 p hp) }

theorem remove_map {r : Registry κ ν} {key : κ} {m : HashMap κ ν}
    (h : r.map.remove key = some m) : (r.remove key).map = m := by
  unfold remove
  split
  · rename_i hnone
    rw [hnone] at h
    cases h
  · rename_i m' hm'
    exact Option.some.inj (hm'.symm.trans h)

/-! ## What the operations do to the registered objects -/

theorem perm_remove {r : Registry κ ν} {key : κ} {v : ν} (h : r.get key = some v) :
    r.entries.Perm ((key, v) :: (r.remove key).entries) := by
  obtain ⟨m, hm, -, hperm, -⟩ := r.wellFormed.remove_of_get h
  rw [entries, entries, remove_map hm]
  exact hperm

theorem perm_put_of_some {r : Registry κ ν} {v old : ν}
    (h : r.get (Keyed.key v) = some old) :
    (r.put v).entries.Perm
      ((Keyed.key v, v) :: (r.remove (Keyed.key v)).entries) := by
  obtain ⟨m, hm, -, -, hput⟩ := r.wellFormed.remove_of_get h
  rw [entries, entries, remove_map hm]
  exact hput v

theorem perm_put_of_none {r : Registry κ ν} {v : ν} (h : r.get (Keyed.key v) = none) :
    (r.put v).entries.Perm ((Keyed.key v, v) :: r.entries) :=
  r.wellFormed.entries_put_of_none v h

theorem entries_nodup (r : Registry κ ν) : (r.entries.map Prod.fst).Nodup :=
  r.wellFormed.entries_nodup

@[simp] theorem get_init (capacity : ℕ) (h : 0 < capacity) (key : κ) :
    (init capacity h : Registry κ ν).get key = none :=
  HashMap.get_init capacity key

@[simp] theorem entries_init (capacity : ℕ) (h : 0 < capacity) :
    (init capacity h : Registry κ ν).entries = [] := by
  simp [entries, init, HashMap.entries, HashMap.init]

theorem containsKey_eq (r : Registry κ ν) (key : κ) :
    r.containsKey key = (r.get key).isSome :=
  HashMap.containsKey_eq r.map key

@[simp] theorem get_put_self (r : Registry κ ν) (v : ν) :
    (r.put v).get (Keyed.key v) = some v := by
  apply mem_entries_iff.mp
  cases h : r.get (Keyed.key v) with
  | none => exact (perm_put_of_none h).mem_iff.mpr (by simp)
  | some old => exact (perm_put_of_some h).mem_iff.mpr (by simp)

theorem mem_entries_remove_iff {r : Registry κ ν} {key₀ : κ} {v₀ : ν}
    (h : r.get key₀ = some v₀) {key : κ} {v : ν} :
    (key, v) ∈ (r.remove key₀).entries ↔ key ≠ key₀ ∧ (key, v) ∈ r.entries := by
  have hperm := perm_remove h
  have hnd := (hperm.map Prod.fst).nodup_iff.mp r.entries_nodup
  rw [List.map_cons, List.nodup_cons] at hnd
  constructor
  · intro hmem
    refine ⟨?_, hperm.mem_iff.mpr (List.mem_cons_of_mem _ hmem)⟩
    rintro rfl
    exact hnd.1 (List.mem_map.mpr ⟨(key, v), hmem, rfl⟩)
  · rintro ⟨hne, hmem⟩
    rcases List.mem_cons.mp (hperm.mem_iff.mp hmem) with heq | hrest
    · exact absurd (Prod.mk.inj heq).1 hne
    · exact hrest

theorem get_put_of_ne (r : Registry κ ν) (v : ν) {key : κ} (hne : key ≠ Keyed.key v) :
    (r.put v).get key = r.get key := by
  apply Option.ext
  intro w
  rw [← mem_entries_iff, ← mem_entries_iff]
  cases h : r.get (Keyed.key v) with
  | none =>
      rw [(perm_put_of_none h).mem_iff, List.mem_cons, Prod.mk.injEq]
      simp [hne]
  | some old =>
      rw [(perm_put_of_some h).mem_iff, List.mem_cons, mem_entries_remove_iff h,
        Prod.mk.injEq]
      simp [hne]

theorem get_put [DecidableEq κ] (r : Registry κ ν) (v : ν) (key : κ) :
    (r.put v).get key = if key = Keyed.key v then some v else r.get key := by
  by_cases h : key = Keyed.key v
  · rw [if_pos h, h, get_put_self]
  · rw [if_neg h, get_put_of_ne r v h]

@[simp] theorem get_remove_self (r : Registry κ ν) (key : κ) :
    (r.remove key).get key = none := by
  cases h : r.get key with
  | none =>
      unfold remove
      split
      · exact h
      · rename_i m hm
        apply Option.eq_none_iff_forall_ne_some.mpr
        intro v hv
        have hmem := (of_remove hm).2 (key, v) (mem_entries_iff.mpr hv)
        rw [mem_entries_iff, h] at hmem
        cases hmem
  | some v =>
      apply Option.eq_none_iff_forall_ne_some.mpr
      intro w hw
      exact ((mem_entries_remove_iff h).mp (mem_entries_iff.mpr hw)).1 rfl

/-- Removing a key the registry does not have leaves every object there. -/
theorem remove_of_none {r : Registry κ ν} {key : κ} (h : r.get key = none) :
    r.remove key = r := by
  unfold remove
  split
  · rfl
  · rename_i m hm
    obtain rfl := HashMap.eq_of_remove h hm
    rfl

theorem get_remove_of_ne (r : Registry κ ν) {key key₀ : κ} (hne : key ≠ key₀) :
    (r.remove key₀).get key = r.get key := by
  cases h : r.get key₀ with
  | none => rw [remove_of_none h]
  | some v₀ =>
      apply Option.ext
      intro w
      rw [← mem_entries_iff, ← mem_entries_iff, mem_entries_remove_iff h]
      simp [hne]

theorem get_remove [DecidableEq κ] (r : Registry κ ν) (key₀ key : κ) :
    (r.remove key₀).get key = if key = key₀ then none else r.get key := by
  by_cases h : key = key₀
  · rw [if_pos h, h, get_remove_self]
  · rw [if_neg h, get_remove_of_ne r h]

/-- A property of all registered objects, when one is registered. -/
theorem forall_put [DecidableEq κ] {r : Registry κ ν} {P : ν → Prop} {v : ν}
    (h : ∀ key w, r.get key = some w → P w) (hv : P v) :
    ∀ key w, (r.put v).get key = some w → P w := by
  intro key w hw
  rw [get_put] at hw
  by_cases hkey : key = Keyed.key v
  · rw [if_pos hkey] at hw
    exact Option.some.inj hw ▸ hv
  · rw [if_neg hkey] at hw
    exact h key w hw

/-- After an entry was put in, that entry decides. -/
theorem forall_put_iff [DecidableEq κ] {r : Registry κ ν} {P : ν → Prop}
    (h : ∀ key w, r.get key = some w → P w) (v : ν) :
    (∀ key w, (r.put v).get key = some w → P w) ↔ P v :=
  ⟨fun hall => hall (Keyed.key v) v (get_put_self r v), forall_put h⟩

theorem forall_remove [DecidableEq κ] {r : Registry κ ν} {P : ν → Prop} {key₀ : κ}
    (h : ∀ key w, r.get key = some w → P w) :
    ∀ key w, (r.remove key₀).get key = some w → P w := by
  intro key w hw
  rw [get_remove] at hw
  by_cases hkey : key = key₀
  · simp [hkey] at hw
  · rw [if_neg hkey] at hw
    exact h key w hw

theorem ext_map {r r' : Registry κ ν} (h : r.map = r'.map) : r = r' := by
  cases r
  cases r'
  simpa using h

/-- Registering an object again as it is changes nothing. -/
theorem put_self {r : Registry κ ν} {v : ν} (h : r.get (Keyed.key v) = some v) :
    r.put v = r :=
  ext_map (r.wellFormed.put_self h)

/-- Of two objects registered under one key the last one counts. -/
theorem put_put (r : Registry κ ν) {v w : ν} (h : Keyed.key v = Keyed.key w) :
    (r.put v).put w = r.put w := by
  apply ext_map
  change (r.map.put (Keyed.key v) v).put (Keyed.key w) w = r.map.put (Keyed.key w) w
  rw [h]
  exact r.wellFormed.put_put (Keyed.key w) v w

theorem entries_eq_nil_iff {r : Registry κ ν} :
    r.entries = [] ↔ ∀ key, r.get key = none := by
  constructor
  · intro h key
    apply Option.eq_none_iff_forall_ne_some.mpr
    intro v hv
    have hmem := mem_entries_iff.mpr hv
    rw [h] at hmem
    simp at hmem
  · intro h
    apply List.eq_nil_iff_forall_not_mem.mpr
    rintro ⟨key, v⟩ hmem
    rw [mem_entries_iff, h key] at hmem
    cases hmem

/-! ## Totals over the registered objects -/

/-- The sum of `f` over the registered objects. -/
def total (r : Registry κ ν) (f : ν → ℕ) : ℕ := (r.entries.map fun p => f p.2).sum

@[simp] theorem total_init (capacity : ℕ) (h : 0 < capacity) (f : ν → ℕ) :
    (init capacity h : Registry κ ν).total f = 0 := by
  simp [total]

theorem total_remove {r : Registry κ ν} {key : κ} {v : ν} (h : r.get key = some v)
    (f : ν → ℕ) : r.total f = (r.remove key).total f + f v := by
  have hsum := ((perm_remove h).map fun p => f p.2).sum_eq
  rw [List.map_cons, List.sum_cons] at hsum
  rw [total, total, hsum, Nat.add_comm]

theorem total_put_of_some {r : Registry κ ν} {v old : ν}
    (h : r.get (Keyed.key v) = some old) (f : ν → ℕ) :
    (r.put v).total f + f old = r.total f + f v := by
  have hsum := ((perm_put_of_some h).map fun p => f p.2).sum_eq
  simp only [List.map_cons, List.sum_cons] at hsum
  rw [total_remove h f, total, hsum, total]
  omega

theorem total_put_of_none {r : Registry κ ν} {v : ν} (h : r.get (Keyed.key v) = none)
    (f : ν → ℕ) : (r.put v).total f = r.total f + f v := by
  have hsum := ((perm_put_of_none h).map fun p => f p.2).sum_eq
  rw [List.map_cons, List.sum_cons] at hsum
  rw [total, hsum, total, Nat.add_comm]

theorem le_total {r : Registry κ ν} {key : κ} {v : ν} (h : r.get key = some v)
    (f : ν → ℕ) : f v ≤ r.total f := by
  rw [total_remove h f]
  omega

theorem total_pos_iff {r : Registry κ ν} {f : ν → ℕ} :
    0 < r.total f ↔ ∃ key v, r.get key = some v ∧ 0 < f v := by
  constructor
  · intro h
    obtain ⟨n, hn, hpos⟩ : ∃ n ∈ r.entries.map fun p => f p.2, 0 < n := by
      by_contra hzero
      push Not at hzero
      have hsum : r.total f = 0 := List.sum_eq_zero fun n hn => Nat.le_zero.mp (hzero n hn)
      omega
    obtain ⟨⟨key, v⟩, hmem, rfl⟩ := List.mem_map.mp hn
    exact ⟨key, v, mem_entries_iff.mp hmem, hpos⟩
  · rintro ⟨key, v, hget, hpos⟩
    exact lt_of_lt_of_le hpos (le_total hget f)

end Registry

end EceLib
