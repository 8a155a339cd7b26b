import EceLib.HashMap.Keys
import EceLib.Support.Run
import Mathlib.Data.Finmap

/-!
# The hash map as a finite map

Sequences of `hash_map_put`, `hash_map_get`, `hash_map_contains_key` and
`hash_map_remove` on a map of any capacity, beside the same sequences on a
finite map.  The two give the same results while only present keys are removed.
A key that is absent may be removed as well, but not from a bucket whose list
has been emptied.
-/

namespace EceLib

/-! ## Calls -/

/-- The calls a user of a map makes. -/
inductive MapCall (κ ν : Type) where
  | put (key : κ) (value : ν)
  | get (key : κ)
  | containsKey (key : κ)
  | remove (key : κ)
deriving DecidableEq

/-- What a call returns; a null pointer is `value none`. -/
inductive MapResult (ν : Type) where
  | done
  | value (v : Option ν)
  | found (b : Bool)
deriving DecidableEq

namespace HashMap

variable {κ ν : Type} [HashKey κ]

/-- One call, without a result where it dereferences a null pointer. -/
def exec (m : HashMap κ ν) : MapCall κ ν → Option (HashMap κ ν × MapResult ν)
  | .put key value => some (m.put key value, .done)
  | .get key => some (m, .value (m.get key))
  | .containsKey key => some (m, .found (m.containsKey key))
  | .remove key => (m.remove key).map fun m' => (m', .done)

def step (m : HashMap κ ν) (c : MapCall κ ν) : Option (HashMap κ ν) :=
  (m.exec c).map Prod.fst

/-- The map after the calls, made in their order, and what they returned. -/
def execAll : HashMap κ ν → List (MapCall κ ν) →
    Option (HashMap κ ν × List (MapResult ν))
  | m, [] => some (m, [])
  | m, c :: cs =>
      (m.exec c).bind fun p => (execAll p.1 cs).map fun q => (q.1, p.2 :: q.2)

end HashMap

/-! ## The finite map -/

/-- What a map is for: finitely many keys, each with one value. -/
abbrev FiniteMap (κ ν : Type) := Finmap fun _ : κ => ν

namespace FiniteMap

variable {κ ν : Type} [DecidableEq κ]

def exec (f : FiniteMap κ ν) : MapCall κ ν → FiniteMap κ ν × MapResult ν
  | .put key value => (f.insert key value, .done)
  | .get key => (f, .value (f.lookup key))
  | .containsKey key => (f, .found (decide (key ∈ f)))
  | .remove key => (f.erase key, .done)

def execAll : FiniteMap κ ν → List (MapCall κ ν) → FiniteMap κ ν × List (MapResult ν)
  | f, [] => (f, [])
  | f, c :: cs =>
      ((execAll (exec f c).1 cs).1, (exec f c).2 :: (execAll (exec f c).1 cs).2)

/-- The call removes only a key that is there. -/
def Present (f : FiniteMap κ ν) : MapCall κ ν → Prop
  | .remove key => key ∈ f
  | _ => True

/-- Every removed key is there when it is removed. -/
def AllPresent : FiniteMap κ ν → List (MapCall κ ν) → Prop
  | _, [] => True
  | f, c :: cs => Present f c ∧ AllPresent (exec f c).1 cs

end FiniteMap

/-! ## Lookups after an update -/

namespace HashMap

variable {κ ν : Type} [HashKey κ] {m m' : HashMap κ ν}

theorem WellFormed.get_of_perm (hm : m.WellFormed) (hm' : m'.WellFormed) {key : κ} {v : ν}
    (hperm : m'.entries.Perm ((key, v) :: m.entries)) {k : κ} (hk : k ≠ key) :
    m'.get k = m.get k := by
  apply Option.ext
  intro w
  rw [hm'.get_eq_some_iff, hm.get_eq_some_iff, hperm.mem_iff, List.mem_cons, Prod.mk.injEq]
  simp [hk]

theorem WellFormed.get_put_self (hm : m.WellFormed) (key : κ) (value : ν) :
    (m.put key value).get key = some value := by
  rw [(hm.put key value).get_eq_some_iff]
  cases hget : m.get key with
  | none => exact (hm.entries_put_of_none value hget).mem_iff.mpr List.mem_cons_self
  | some old =>
      obtain ⟨r, -, -, -, hput⟩ := hm.remove_of_get hget
      exact (hput value).mem_iff.mpr List.mem_cons_self

theorem WellFormed.get_put_of_ne (hm : m.WellFormed) (value : ν) {key k : κ}
    (hk : k ≠ key) : (m.put key value).get k = m.get k := by
  cases hget : m.get key with
  | none => exact hm.get_of_perm (hm.put key value) (hm.entries_put_of_none value hget) hk
  | some old =>
      obtain ⟨r, -, hr, hold, hput⟩ := hm.remove_of_get hget
      rw [hr.get_of_perm (hm.put key value) (hput value) hk, hr.get_of_perm hm hold hk]

/-- A present key is removed, and only that key is gone. -/
theorem WellFormed.remove_present (hm : m.WellFormed) {key : κ} {v : ν}
    (h : m.get key = some v) :
    ∃ r, m.remove key = some r ∧ r.WellFormed ∧ r.get key = none ∧
      ∀ k, k ≠ key → r.get k = m.get k := by
  obtain ⟨r, hremove, hr, hold, -⟩ := hm.remove_of_get h
  refine ⟨r, hremove, hr, ?_, fun k hk => (hr.get_of_perm hm hold hk).symm⟩
  apply Option.eq_none_iff_forall_ne_some.mpr
  intro w hw
  have hnd := (hold.map Prod.fst).nodup_iff.mp hm.entries_nodup
  rw [List.map_cons, List.nodup_cons] at hnd
  exact hnd.1 (List.mem_map.mpr ⟨(key, w), hr.get_eq_some_iff.mp hw, rfl⟩)

theorem WellFormed.mem_keys_iff (hm : m.WellFormed) (key : κ) :
    key ∈ m.entries.map Prod.fst ↔ (m.get key).isSome := by
  rw [List.mem_map, Option.isSome_iff_exists]
  constructor
  · rintro ⟨⟨k, v⟩, hmem, rfl⟩
    exact ⟨v, hm.get_eq_some_iff.mpr hmem⟩
  · rintro ⟨v, hv⟩
    exact ⟨(key, v), hm.get_eq_some_iff.mp hv, rfl⟩

@[simp] theorem capacity_put (m : HashMap κ ν) (key : κ) (value : ν) :
    (m.put key value).capacity = m.capacity := by
  cases hget : pairsGet key ((m.list key).getD []) with
  | none =>
      rw [put_of_none value hget]
      exact List.length_set
  | some old =>
      rw [put_of_some value hget]
      exact List.length_set

theorem capacity_remove {key : κ} (h : m.remove key = some m') :
    m'.capacity = m.capacity := by
  unfold HashMap.remove at h
  split at h
  · rw [← Option.some.inj h]
  · cases h
  · split at h
    · rw [← Option.some.inj h]
      exact List.length_set
    · rw [← Option.some.inj h]

/-! ## The refinement -/

section Refinement

variable [DecidableEq κ]

/-- The map stores exactly the pairs of the finite map, each once and in the
bucket its key hashes to, and counts them. -/
structure Represents (capacity : ℕ) (m : HashMap κ ν) (f : FiniteMap κ ν) : Prop where
  get_eq : ∀ key, m.get key = f.lookup key
  size_eq : m.size = f.keys.card
  nodes_eq : ∀ key, (m.entries.map Prod.fst).count key = if key ∈ f then 1 else 0
  placed : ∀ (i : ℕ) (l : List (κ × ν)), m.table[i]? = some (some l) →
    ∀ p ∈ l, HashKey.hashFunc p.1 capacity = i

variable {f : FiniteMap κ ν}

theorem mem_iff_isSome_get (h : ∀ key, m.get key = f.lookup key) (key : κ) :
    key ∈ f ↔ (m.get key).isSome := by
  rw [h, Finmap.lookup_isSome]

/-- A well-formed map represents the finite map with the same lookups. -/
theorem WellFormed.represents (hm : m.WellFormed)
    (h : ∀ key, m.get key = f.lookup key) : m.Represents m.capacity f where
  get_eq := h
  size_eq := by
    have hkeys : f.keys = (m.entries.map Prod.fst).toFinset := by
      ext key
      rw [Finmap.mem_keys, List.mem_toFinset, hm.mem_keys_iff, mem_iff_isSome_get h]
    rw [hkeys, List.toFinset_card_of_nodup hm.entries_nodup, List.length_map, hm.size_eq]
  nodes_eq := by
    intro key
    have hiff : key ∈ m.entries.map Prod.fst ↔ key ∈ f := by
      rw [hm.mem_keys_iff, mem_iff_isSome_get h]
    rw [hm.entries_nodup.count]
    exact if_congr hiff rfl rfl
  placed := hm.placed

/-- One call on a map and on the finite map with the same lookups. -/
theorem WellFormed.exec (hm : m.WellFormed) (h : ∀ key, m.get key = f.lookup key)
    {c : MapCall κ ν} (hc : FiniteMap.Present f c) :
    ∃ r, m.exec c = some (r, (FiniteMap.exec f c).2) ∧ r.WellFormed ∧
      r.capacity = m.capacity ∧ ∀ key, r.get key = (FiniteMap.exec f c).1.lookup key := by
  cases c with
  | put key value =>
      refine ⟨m.put key value, rfl, hm.put key value, capacity_put m key value, ?_⟩
      intro k
      by_cases hk : k = key
      · subst hk
        rw [hm.get_put_self]
        exact (Finmap.lookup_insert f).symm
      · rw [hm.get_put_of_ne value hk, h]
        exact (Finmap.lookup_insert_of_ne f hk).symm
  | get key =>
      refine ⟨m, ?_, hm, rfl, h⟩
      rw [HashMap.exec, h key]
      rfl
  | containsKey key =>
      refine ⟨m, ?_, hm, rfl, h⟩
      have hfound : m.containsKey key = decide (key ∈ f) := by
        rw [containsKey_eq, Bool.eq_iff_iff, decide_eq_true_iff, mem_iff_isSome_get h]
      rw [HashMap.exec, hfound]
      rfl
  | remove key =>
      obtain ⟨v, hv⟩ := Finmap.mem_iff.mp hc
      obtain ⟨r, hremove, hr, hself, hother⟩ := hm.remove_present ((h key).trans hv)
      refine ⟨r, ?_, hr, capacity_remove hremove, ?_⟩
      · rw [HashMap.exec, hremove]
        rfl
      · intro k
        by_cases hk : k = key
        · subst hk
          rw [hself]
          exact (Finmap.lookup_erase k f).symm
        · rw [hother k hk, h]
          exact (Finmap.lookup_erase_ne hk).symm

/-- A run of calls on a map and on the finite map with the same lookups. -/
theorem WellFormed.execAll (hm : m.WellFormed) (h : ∀ key, m.get key = f.lookup key)
    {cs : List (MapCall κ ν)} (hcs : FiniteMap.AllPresent f cs) :
    ∃ r, m.execAll cs = some (r, (FiniteMap.execAll f cs).2) ∧
      r.Represents m.capacity (FiniteMap.execAll f cs).1 := by
  induction cs generalizing m f with
  | nil => exact ⟨m, rfl, hm.represents h⟩
  | cons c cs ih =>
      obtain ⟨m₁, hexec, hm₁, hcap, hlookup⟩ := hm.exec h hcs.1
      obtain ⟨r, hall, hrep⟩ := ih hm₁ hlookup hcs.2
      refine ⟨r, ?_, hcap ▸ hrep⟩
      rw [HashMap.execAll, hexec, Option.bind_some, hall]
      rfl

theorem get_init_eq_lookup (capacity : ℕ) (key : κ) :
    (init capacity : HashMap κ ν).get key = (∅ : FiniteMap κ ν).lookup key := by
  rw [get_init, Finmap.lookup_empty]

variable (κ ν) in
/-- Every sequence of calls that removes only present keys has the results of
the finite map, and leaves a map that represents it. -/
def Refines (capacity : ℕ) : Prop :=
  ∀ cs : List (MapCall κ ν), FiniteMap.AllPresent ∅ cs →
    ∃ m, (init capacity).execAll cs = some (m, (FiniteMap.execAll ∅ cs).2) ∧
      m.Represents capacity (FiniteMap.execAll ∅ cs).1

theorem refines_init {capacity : ℕ} (hcapacity : 0 < capacity) : Refines κ ν capacity := by
  intro cs hcs
  have hcap : (init capacity : HashMap κ ν).capacity = capacity := List.length_replicate
  obtain ⟨m, hall, hrep⟩ :=
    (wellFormed_init hcapacity).execAll (get_init_eq_lookup capacity) hcs
  exact ⟨m, hall, hcap ▸ hrep⟩

end Refinement

/-- The hash map refines a finite map with the keys of both comparators; the
OIDs are the strings of 32 characters. -/
theorem refines_finiteMap {ν : Type} {capacity : ℕ} (hcapacity : 0 < capacity) :
    Refines UInt32 ν capacity ∧ (∀ n, Refines (StrKey n) ν capacity) ∧
      Refines Oid ν capacity :=
  ⟨refines_init hcapacity, fun _ => refines_init hcapacity, refines_init hcapacity⟩

theorem refines_finiteMap_one :
    0 < 1 ∧ Refines UInt32 ℕ 1 ∧ (∀ n, Refines (StrKey n) ℕ 1) ∧ Refines Oid ℕ 1 :=
  ⟨Nat.zero_lt_one, refines_finiteMap Nat.zero_lt_one⟩

/-! ## Removing a key that is absent -/

/-- The list of a key after the list of another has been replaced. -/
theorem WellFormed.list_set (hm : m.WellFormed) (key k : κ) (l : List (κ × ν)) (n : ℕ) :
    (HashMap.mk (m.table.set (m.offset key) (some l)) n).list k =
      if m.offset k = m.offset key then some l else m.list k := by
  have hoff : (HashMap.mk (m.table.set (m.offset key) (some l)) n).offset k = m.offset k := by
    simp [offset, capacity]
  have hlt := hm.offset_lt key
  rw [list, hoff, List.getD_eq_getElem?_getD]
  by_cases hk : m.offset k = m.offset key
  · rw [if_pos hk, hk, List.getElem?_set_self hlt, Option.getD_some]
  · rw [if_neg hk, List.getElem?_set_ne (Ne.symm hk), list, List.getD_eq_getElem?_getD]

/-- `hash_map_put` allocates the list of its key; no list is given back. -/
theorem WellFormed.allocated_put (hm : m.WellFormed) (key k : κ) (value : ν) :
    ((m.put key value).list k).isSome ↔
      m.offset key = m.offset k ∨ (m.list k).isSome := by
  have hset : ∃ l n, m.put key value =
      HashMap.mk (m.table.set (m.offset key) (some l)) n := by
    cases hget : pairsGet key ((m.list key).getD []) with
    | none => exact ⟨_, _, put_of_none value hget⟩
    | some old => exact ⟨_, _, put_of_some value hget⟩
  obtain ⟨l, n, hput⟩ := hset
  rw [hput, hm.list_set]
  by_cases hk : m.offset k = m.offset key
  · simp [hk]
  · simp [hk, Ne.symm hk]

theorem WellFormed.allocated_remove (hm : m.WellFormed) {key : κ}
    (h : m.remove key = some m') (k : κ) :
    (m'.list k).isSome ↔ (m.list k).isSome := by
  unfold HashMap.remove at h
  split at h
  · rw [← Option.some.inj h]
  · cases h
  · rename_i p ps hl
    split at h
    · rw [← Option.some.inj h, hm.list_set]
      by_cases hk : m.offset k = m.offset key
      · have hlist : m.list k = m.list key := by rw [list, list, hk]
        simp [hk, hlist, hl]
      · simp [hk]
    · rw [← Option.some.inj h]

/-- The calls that a map of some capacity has seen so far and the lists it has
allocated for them. -/
structure Seen (capacity : ℕ) (cs : List (MapCall κ ν)) (m : HashMap κ ν) : Prop where
  wellFormed : m.WellFormed
  capacity_eq : m.capacity = capacity
  allocated : ∀ k, (m.list k).isSome ↔
    ∃ key value, MapCall.put key value ∈ cs ∧
      HashKey.hashFunc key capacity = HashKey.hashFunc k capacity

theorem WellFormed.wellFormed_remove (hm : m.WellFormed) {key : κ}
    (h : m.remove key = some m') : m'.WellFormed := by
  cases hget : m.get key with
  | none =>
      rw [eq_of_remove hget h]
      exact hm
  | some v =>
      obtain ⟨r, hr, hwf, -⟩ := hm.remove_present hget
      obtain rfl : r = m' := Option.some.inj (hr.symm.trans h)
      exact hwf

theorem seen_init {capacity : ℕ} (hcapacity : 0 < capacity) :
    Seen capacity [] (init capacity : HashMap κ ν) where
  wellFormed := wellFormed_init hcapacity
  capacity_eq := List.length_replicate
  allocated := by
    intro k
    have hlist : (init capacity : HashMap κ ν).list k = none := by
      rw [list, init, List.getD_eq_getElem?_getD, List.getElem?_replicate]
      split <;> rfl
    simp [hlist]

/-- One more call. -/
theorem Seen.step {capacity : ℕ} {cs : List (MapCall κ ν)} (hm : Seen capacity cs m)
    {c : MapCall κ ν} (h : m.step c = some m') : Seen capacity (cs ++ [c]) m' := by
  obtain ⟨hwf, hcap, halloc⟩ := hm
  cases c with
  | put key value =>
      obtain rfl : m.put key value = m' := Option.some.inj h
      refine ⟨hwf.put key value, by rw [capacity_put, hcap], fun k => ?_⟩
      rw [hwf.allocated_put, halloc, offset, offset, hcap]
      constructor
      · rintro (heq | ⟨key', value', hmem, heq⟩)
        · exact ⟨key, value, by simp, heq⟩
        · exact ⟨key', value', by simp [hmem], heq⟩
      · rintro ⟨key', value', hmem, heq⟩
        rcases List.mem_append.mp hmem with hold | hnew
        · exact Or.inr ⟨key', value', hold, heq⟩
        · obtain ⟨rfl, rfl⟩ : key' = key ∧ value' = value := by simpa using hnew
          exact Or.inl heq
  | get key =>
      obtain rfl : m = m' := Option.some.inj h
      exact ⟨hwf, hcap, fun k => by simp [halloc]⟩
  | containsKey key =>
      obtain rfl : m = m' := Option.some.inj h
      exact ⟨hwf, hcap, fun k => by simp [halloc]⟩
  | remove key =>
      have hremove : m.remove key = some m' := by
        cases hr : m.remove key with
        | none => simp [HashMap.step, HashMap.exec, hr] at h
        | some r => simpa [HashMap.step, HashMap.exec, hr] using h
      refine ⟨hwf.wellFormed_remove hremove, by rw [capacity_remove hremove, hcap], fun k => ?_⟩
      rw [hwf.allocated_remove hremove, halloc]
      simp

theorem Seen.run {capacity : ℕ} {cs ds : List (MapCall κ ν)} (hm : Seen capacity cs m)
    (h : Support.run HashMap.step m ds = some m') : Seen capacity (cs ++ ds) m' := by
  induction ds generalizing cs m with
  | nil =>
      obtain rfl : m = m' := Option.some.inj h
      rwa [List.append_nil]
  | cons c ds ih =>
      obtain ⟨m₁, hstep, hrun⟩ := Support.run_cons_eq_some h
      have hall := ih (hm.step hstep) hrun
      rwa [List.append_assoc] at hall

/-- The keys of the list of `key` are the present keys that hash to it. -/
theorem WellFormed.exists_mem_list_iff (hm : m.WellFormed) (key : κ) :
    (m.list key).getD [] ≠ [] ↔
      ∃ k, (m.get k).isSome ∧
        HashKey.hashFunc k m.capacity = HashKey.hashFunc key m.capacity := by
  constructor
  · intro h
    obtain ⟨⟨k, v⟩, hp⟩ := List.exists_mem_of_ne_nil _ h
    have hoff := hm.offset_of_mem_list hp
    have hlist : m.list k = m.list key := by rw [list, list, hoff]
    refine ⟨k, ?_, hoff⟩
    rw [Option.isSome_iff_exists]
    exact ⟨v, hm.get_eq_some_iff.mpr (hm.mem_entries_iff_mem_list.mpr (hlist ▸ hp))⟩
  · rintro ⟨k, hk, hoff⟩
    obtain ⟨v, hv⟩ := Option.isSome_iff_exists.mp hk
    have hmem := hm.mem_entries_iff_mem_list.mp (hm.get_eq_some_iff.mp hv)
    have hlist : m.list k = m.list key := by rw [list, list, offset, offset, hoff]
    exact List.ne_nil_of_mem (hlist ▸ hmem)

/-- The removal of an absent key changes nothing, except that on a list that
has been emptied it fails. -/
theorem remove_absent {key : κ} (h : m.containsKey key = false) :
    m.remove key = some m ↔ m.list key ≠ some [] := by
  rw [containsKey_eq, Option.isSome_eq_false_iff, Option.isNone_iff_eq_none,
    get_eq_pairsGet] at h
  cases hl : m.list key with
  | none => simp [HashMap.remove, hl]
  | some l =>
      cases l with
      | nil => simp [HashMap.remove, hl]
      | cons p ps =>
          rw [hl, Option.getD_some] at h
          simp [HashMap.remove, hl, h]

/-- A map reached by any calls: the removal of a key that is not there does
nothing exactly if no key has ever been put into its bucket, or one is still
in it. -/
theorem remove_absent_iff {ν : Type} {capacity : ℕ} (hcapacity : 0 < capacity)
    {cs : List (MapCall UInt32 ν)} {m : HashMap UInt32 ν}
    (hm : Support.run HashMap.step (init capacity) cs = some m)
    {key : UInt32} (hkey : m.containsKey key = false) :
    m.remove key = some m ↔
      ((∃ k value, MapCall.put k value ∈ cs ∧
          intHashFunc k capacity = intHashFunc key capacity) →
        ∃ k, m.containsKey k ∧
          intHashFunc k capacity = intHashFunc key capacity) := by
  have hseen := (seen_init hcapacity).run hm
  rw [List.nil_append] at hseen
  have halloc := hseen.allocated key
  have hfilled := hseen.wellFormed.exists_mem_list_iff key
  rw [hseen.capacity_eq] at hfilled
  simp only [containsKey_eq]
  rw [remove_absent hkey]
  change _ ↔ ((∃ k value, _ ∧ HashKey.hashFunc k capacity = HashKey.hashFunc key capacity) →
    ∃ k, _ ∧ HashKey.hashFunc k capacity = HashKey.hashFunc key capacity)
  rw [← halloc, ← hfilled]
  cases hl : m.list key with
  | none => simp
  | some l => cases l <;> simp

/-- A key is put and removed, and then removed once more. -/
theorem remove_absent_null :
    ∃ (m : HashMap UInt32 ℕ),
      Support.run HashMap.step (init 32) [.put 5 0, .remove 5] = some m ∧
        m.containsKey 5 = false ∧ m.remove 5 = none :=
  ⟨_, rfl, by decide, by decide⟩

theorem remove_absent_iff_five :
    ∃ (m : HashMap UInt32 ℕ), 0 < 1 ∧
      Support.run HashMap.step (init 1) [.put 5 0] = some m ∧ m.containsKey 6 = false ∧
        (m.remove 6 = some m ↔
          ((∃ k value, MapCall.put k value ∈ [MapCall.put (5 : UInt32) 0] ∧
              intHashFunc k 1 = intHashFunc 6 1) →
            ∃ k, m.containsKey k ∧ intHashFunc k 1 = intHashFunc 6 1)) := by
  have hm : Support.run HashMap.step (init 1) [MapCall.put (5 : UInt32) 0] =
      some ((init 1).put 5 0) := rfl
  have hkey : ((init 1).put (5 : UInt32) 0).containsKey 6 = false := by decide
  exact ⟨_, Nat.zero_lt_one, hm, hkey, remove_absent_iff Nat.zero_lt_one hm hkey⟩

end HashMap

end EceLib
