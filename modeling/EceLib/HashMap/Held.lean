import EceLib.HashMap.Objects
import EceLib.HashMap.Values

/-!
# Maps of objects as registries

A registry is what a map of allocated objects is when the objects stand in the
place of the pointers to them.  The calls on the one are calls on the other, and
a walk meets the objects in the order of the registry.
-/

namespace EceLib

open Support

variable {κ α : Type} [HashKey κ] [Keyed κ α]

/-- What a call on a map of objects does to a registry. -/
def Registry.call (r : Registry κ α) : ObjCall κ α → Registry κ α
  | .add x => r.put x
  | .update x => if r.containsKey (Keyed.key x) then r.put x else r
  | .store x => r.put x
  | .del key => if r.containsKey key then r.remove key else r

namespace ObjMap

variable {st st' : ObjMap κ α} {hm : HashMap κ ℕ} {r : Registry κ α} {key : κ}

/-- With the objects read from their addresses the map is the registry. -/
def Holds (st : ObjMap κ α) (r : Registry κ α) : Prop :=
  ∃ hm, st.Owns hm ∧ hm.mapValues st.objs.read = r.map.mapValues some

theorem holds_init {capacity : ℕ} (hcapacity : 0 < capacity) :
    (init capacity : ObjMap κ α).Holds (Registry.init capacity hcapacity) := by
  refine ⟨HashMap.init capacity, owns_init hcapacity, ?_⟩
  simp [Registry.init, HashMap.mapValues, HashMap.init]

/-- What is found in the map is the address of what is found in the registry. -/
theorem get_of_values (hvals : hm.mapValues st.objs.read = r.map.mapValues some) (key : κ) :
    (hm.get key).map st.objs.read = (r.get key).map some := by
  rw [← HashMap.get_mapValues, hvals, HashMap.get_mapValues, Registry.get]

theorem get_eq_none_of_values (hvals : hm.mapValues st.objs.read = r.map.mapValues some) :
    hm.get key = none ↔ r.get key = none := by
  rw [← Option.map_eq_none_iff (f := st.objs.read), get_of_values hvals, Option.map_eq_none_iff]

theorem get_eq_some_of_values (hvals : hm.mapValues st.objs.read = r.map.mapValues some) {p : ℕ}
    (hget : hm.get key = some p) : st.objs.read p = r.get key := by
  have h := get_of_values hvals key
  rw [hget, Option.map_some] at h
  cases hr : r.get key with
  | none =>
      rw [hr] at h
      cases h
  | some x =>
      rw [hr, Option.map_some, Option.some.injEq] at h
      exact h

/-- An object that is exchanged under the key of the call, and only there, is put
into the registry. -/
theorem holds_put (h : st.Owns hm) (hvals : hm.mapValues st.objs.read = r.map.mapValues some)
    {x : α} {p : ℕ} (hown : st'.Owns (hm.put (Keyed.key x) p)) (hp : st'.objs.read p = some x)
    (hother : ∀ e ∈ hm.entries, e.1 ≠ Keyed.key x → st'.objs.read e.2 = st.objs.read e.2) :
    st'.Holds (r.put x) := by
  refine ⟨_, hown, ?_⟩
  calc
    (hm.put (Keyed.key x) p).mapValues st'.objs.read =
        (hm.mapValues st.objs.read).put (Keyed.key x) (st'.objs.read p) :=
      h.wellFormed.mapValues_put hother p
    _ = (r.map.mapValues some).put (Keyed.key x) (some x) := by rw [hvals, hp]
    _ = (r.put x).map.mapValues some :=
      (r.wellFormed.mapValues_put (fun _ _ _ => rfl) x).symm

/-- The entries under other keys have other pointers. -/
theorem pointer_ne (h : st.Owns hm) {p : ℕ} (hget : hm.get key = some p) {e : κ × ℕ}
    (he : e ∈ hm.entries) (hne : e.1 ≠ key) : e.2 ≠ p := by
  rintro rfl
  exact hne (h.pointer_inj (h.wellFormed.get_eq_some_iff.mpr he) hget)

theorem Holds.add (h : st.Holds r) (x : α) : ∃ st', st.add x = some st' ∧ st'.Holds (r.put x) := by
  obtain ⟨hm, hown, hvals⟩ := h
  obtain ⟨st', hst', hown', hobjs⟩ := hown.add x
  refine ⟨st', hst', holds_put hown hvals hown' ?_ ?_⟩
  · rw [hobjs, st.objs.read_alloc, if_pos rfl]
  · rintro ⟨k, p⟩ hp -
    have hlt := hown.lt_top (hown.wellFormed.get_eq_some_iff.mpr hp)
    rw [hobjs, st.objs.read_alloc, if_neg (Nat.ne_of_lt hlt)]

theorem Holds.update_of_none (h : st.Holds r) {x : α} (hget : r.get (Keyed.key x) = none) :
    st.update x = some st := by
  obtain ⟨hm, hown, hvals⟩ := h
  exact hown.update_of_none ((get_eq_none_of_values hvals).mpr hget)

theorem Holds.update_of_some (h : st.Holds r) {x y : α} (hget : r.get (Keyed.key x) = some y) :
    ∃ st', st.update x = some st' ∧ st'.Holds (r.put x) := by
  obtain ⟨hm, hown, hvals⟩ := h
  cases hget' : hm.get (Keyed.key x) with
  | none =>
      rw [(get_eq_none_of_values hvals).mp hget'] at hget
      cases hget
  | some p =>
      obtain ⟨st', hst', hown', hread⟩ := hown.update_of_some hget'
      have hself : hm.put (Keyed.key x) p = hm := hown.wellFormed.put_self hget'
      refine ⟨st', hst', holds_put hown hvals (by rwa [hself]) ?_ ?_⟩
      · rw [hread, if_pos rfl]
      · intro e he hne
        rw [hread, if_neg (pointer_ne hown hget' he hne)]

theorem Holds.store (h : st.Holds r) (x : α) :
    ∃ st', st.store x = some st' ∧ st'.Holds (r.put x) := by
  obtain ⟨hm, hown, hvals⟩ := h
  rcases hown.store_cases x with ⟨-, heq⟩ | ⟨p, hget, heq⟩
  · rw [heq]
    exact Holds.add ⟨hm, hown, hvals⟩ x
  · obtain ⟨y, hy, -⟩ := hown.object hget
    rw [get_eq_some_of_values hvals hget] at hy
    rw [heq]
    exact Holds.update_of_some ⟨hm, hown, hvals⟩ hy

theorem Holds.read_eq (h : st.Holds r) {p : ℕ} (hget : st.map.get key = some (some p)) :
    st.objs.read p = r.get key := by
  obtain ⟨hm, hown, hvals⟩ := h
  rw [hown.get_eq, Option.some.injEq] at hget
  exact get_eq_some_of_values hvals hget

/-- An entry that is released is removed from the registry. -/
theorem Holds.release (h : st.Holds r) {p : ℕ} (hget : st.map.get key = some (some p)) :
    ∃ st', st.release key p = some st' ∧ st'.Holds (r.remove key) := by
  obtain ⟨hm, hown, hvals⟩ := h
  rw [hown.get_eq, Option.some.injEq] at hget
  obtain ⟨x, hx, -⟩ := hown.object hget
  obtain ⟨st', hm', hst', -, hremove, hown', hread⟩ := hown.release hget
  have hother : ∀ e ∈ hm.entries, e.1 ≠ key → st'.objs.read e.2 = st.objs.read e.2 := by
    intro e he hne
    rw [hread, if_neg (pointer_ne hown hget he hne)]
  rw [get_eq_some_of_values hvals hget] at hx
  obtain ⟨m₁, hm₁, hvals₁⟩ := hown.wellFormed.mapValues_remove hother hget
  obtain ⟨m₂, hm₂, hvals₂⟩ := r.wellFormed.mapValues_remove (f := some) (fun _ _ _ => rfl) hx
  obtain rfl : m₁ = hm' := Option.some.inj (hm₁.symm.trans hremove)
  rw [hvals, hvals₂, Option.some.injEq] at hvals₁
  refine ⟨st', hst', m₁, hown', ?_⟩
  rw [Registry.remove_map hm₂, hvals₁]

theorem Holds.step (h : st.Holds r) (c : ObjCall κ α) :
    ∃ st', st.step c = some st' ∧ st'.Holds (r.call c) := by
  cases c with
  | add x => exact h.add x
  | update x =>
      rw [Registry.call, Registry.containsKey_eq]
      cases hget : r.get (Keyed.key x) with
      | none => exact ⟨st, h.update_of_none hget, h⟩
      | some y => exact h.update_of_some hget
  | store x => exact h.store x
  | del key =>
      obtain ⟨hm, hown, hvals⟩ := h
      rw [ObjMap.step, del, hown.get_eq, Registry.call, Registry.containsKey_eq]
      cases hget : hm.get key with
      | none =>
          rw [(get_eq_none_of_values hvals).mp hget]
          exact ⟨st, rfl, hm, hown, hvals⟩
      | some p =>
          obtain ⟨x, hx, -⟩ := hown.object hget
          rw [get_eq_some_of_values hvals hget] at hx
          rw [hx]
          exact Holds.release ⟨hm, hown, hvals⟩ (by rw [hown.get_eq, hget])

/-- A run of calls on a map of objects is one on the registry. -/
theorem Holds.run (h : st.Holds r) (cs : List (ObjCall κ α)) :
    ∃ st', Support.run ObjMap.step st cs = some st' ∧ st'.Holds (cs.foldl Registry.call r) := by
  induction cs generalizing st r with
  | nil => exact ⟨st, rfl, h⟩
  | cons c cs ih =>
      obtain ⟨st₁, hstep, h₁⟩ := h.step c
      obtain ⟨st', hrun, h'⟩ := ih h₁
      refine ⟨st', ?_, h'⟩
      rw [Support.run_cons, hstep, Option.bind_some, hrun]

/-- The entries come in the same order. -/
theorem keys_of_values (hvals : hm.mapValues st.objs.read = r.map.mapValues some) :
    hm.entries.map Prod.fst = r.entries.map Prod.fst := by
  have hentries : pairsMap st.objs.read hm.entries = pairsMap some r.entries := by
    rw [← HashMap.entries_mapValues, hvals, HashMap.entries_mapValues, Registry.entries]
  rw [← keys_pairsMap st.objs.read, hentries, keys_pairsMap]

end ObjMap

end EceLib
