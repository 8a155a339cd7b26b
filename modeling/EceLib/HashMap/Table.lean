import EceLib.Support.Memory
import Mathlib.Data.List.Nodup
import Mathlib.Data.List.Flatten
import Mathlib.Data.List.Perm.Basic

/-!
# The hash map

The model of `lib/hash_map.c` over `lib/linked_list.c`.  A table entry is
`none` while its list has not been allocated; a list, once allocated, is never
given back, so it can be empty.  A pair holds the key and the value themselves
where the source holds pointers to them.
-/

namespace EceLib

/-- The comparator and the hash function a map is initialised with.  A
comparator has to tell equal keys from different ones, a hash function has to
stay below the capacity. -/
class HashKey (κ : Type) where
  comparator : κ → κ → Int
  hashFunc : κ → ℕ → ℕ
  comparator_eq_zero : ∀ l r, comparator l r = 0 ↔ l = r
  hashFunc_lt : ∀ k capacity, 0 < capacity → hashFunc k capacity < capacity

/-! ## The loops over one bucket list -/

section Pairs

variable {κ ν : Type} [HashKey κ]

/-- The value of the first pair whose key compares equal. -/
def pairsGet (key : κ) : List (κ × ν) → Option ν
  | [] => none
  | p :: ps => if HashKey.comparator p.1 key = 0 then some p.2 else pairsGet key ps

/-- Overwrite the value of the first pair whose key compares equal; the pair
keeps its key. -/
def pairsUpdate (key : κ) (value : ν) : List (κ × ν) → List (κ × ν)
  | [] => []
  | p :: ps =>
      if HashKey.comparator p.1 key = 0 then (p.1, value) :: ps
      else p :: pairsUpdate key value ps

/-- Unlink the first pair whose key compares equal. -/
def pairsRemove (key : κ) : List (κ × ν) → List (κ × ν)
  | [] => []
  | p :: ps =>
      if HashKey.comparator p.1 key = 0 then ps else p :: pairsRemove key ps

@[simp] theorem pairsGet_nil (key : κ) : pairsGet key ([] : List (κ × ν)) = none := rfl

theorem pairsGet_eq_none_iff {key : κ} {l : List (κ × ν)} :
    pairsGet key l = none ↔ key ∉ l.map Prod.fst := by
  induction l with
  | nil => simp
  | cons p ps ih =>
      by_cases h : p.1 = key
      · have heq : HashKey.comparator p.1 key = 0 :=
          (HashKey.comparator_eq_zero p.1 key).mpr h
        rw [pairsGet, if_pos heq]
        simp [h]
      · have hne : ¬ HashKey.comparator p.1 key = 0 := fun h0 =>
          h ((HashKey.comparator_eq_zero p.1 key).mp h0)
        simpa [pairsGet, hne, Ne.symm h] using ih

/-- A key that is found is taken out by `pairsRemove`, and the rest stays. -/
theorem perm_of_pairsGet_eq_some {key : κ} {v : ν} {l : List (κ × ν)}
    (h : pairsGet key l = some v) :
    l.Perm ((key, v) :: pairsRemove key l) := by
  induction l with
  | nil => simp at h
  | cons p ps ih =>
      by_cases hp : HashKey.comparator p.1 key = 0
      · have hkey : p.1 = key := (HashKey.comparator_eq_zero p.1 key).mp hp
        have hv : p.2 = v := by simpa [pairsGet, hp] using h
        rw [pairsRemove, if_pos hp, ← hkey, ← hv]
      · rw [pairsRemove, if_neg hp]
        have hps := ih (by simpa [pairsGet, hp] using h)
        exact (hps.cons p).trans (List.Perm.swap _ _ _)

theorem perm_pairsUpdate {key : κ} {v w : ν} {l : List (κ × ν)}
    (h : pairsGet key l = some v) :
    (pairsUpdate key w l).Perm ((key, w) :: pairsRemove key l) := by
  induction l with
  | nil => simp at h
  | cons p ps ih =>
      by_cases hp : HashKey.comparator p.1 key = 0
      · have hkey : p.1 = key := (HashKey.comparator_eq_zero p.1 key).mp hp
        rw [pairsUpdate, if_pos hp, pairsRemove, if_pos hp, hkey]
      · rw [pairsUpdate, if_neg hp, pairsRemove, if_neg hp]
        have hps := ih (by simpa [pairsGet, hp] using h)
        exact (hps.cons p).trans (List.Perm.swap _ _ _)

theorem pairsUpdate_self {key : κ} {v : ν} {l : List (κ × ν)}
    (h : pairsGet key l = some v) : pairsUpdate key v l = l := by
  induction l with
  | nil => rfl
  | cons p ps ih =>
      by_cases hp : HashKey.comparator p.1 key = 0
      · have hv : p.2 = v := by simpa [pairsGet, hp] using h
        rw [pairsUpdate, if_pos hp, ← hv]
      · rw [pairsUpdate, if_neg hp, ih (by simpa [pairsGet, hp] using h)]

theorem pairsUpdate_pairsUpdate (key : κ) (v w : ν) (l : List (κ × ν)) :
    pairsUpdate key w (pairsUpdate key v l) = pairsUpdate key w l := by
  induction l with
  | nil => rfl
  | cons p ps ih =>
      by_cases hp : HashKey.comparator p.1 key = 0
      · simp [pairsUpdate, hp]
      · simp [pairsUpdate, hp, ih]

theorem pairsGet_pairsUpdate {key : κ} {v w : ν} {l : List (κ × ν)}
    (h : pairsGet key l = some v) : pairsGet key (pairsUpdate key w l) = some w := by
  induction l with
  | nil => simp at h
  | cons p ps ih =>
      by_cases hp : HashKey.comparator p.1 key = 0
      · simp [pairsUpdate, pairsGet, hp]
      · have hps := ih (by simpa [pairsGet, hp] using h)
        simpa [pairsUpdate, pairsGet, hp] using hps

end Pairs

/-! ## The map -/

/-- `hash_map`: the capacity is the length of the table. -/
structure HashMap (κ ν : Type) where
  table : List (Option (List (κ × ν)))
  size : ℕ

namespace HashMap

variable {κ ν : Type} [HashKey κ]

def init (capacity : ℕ) : HashMap κ ν where
  table := List.replicate capacity none
  size := 0

def capacity (m : HashMap κ ν) : ℕ := m.table.length

/-- The table index of a key. -/
def offset (m : HashMap κ ν) (key : κ) : ℕ := HashKey.hashFunc key m.capacity

/-- `map->table[map->hash_func(key, map->capacity)]`. -/
def list (m : HashMap κ ν) (key : κ) : Option (List (κ × ν)) :=
  m.table.getD (m.offset key) none

/-- `hash_map_get`. -/
def get (m : HashMap κ ν) (key : κ) : Option ν :=
  match m.list key with
  | none => none
  | some list => pairsGet key list

/-- `hash_map_contains_key`. -/
def containsKey (m : HashMap κ ν) (key : κ) : Bool :=
  match m.list key with
  | none => false
  | some list => (pairsGet key list).isSome

/-- `hash_map_put`: allocate the list if there is none, overwrite the value of
an equal key, else prepend a new pair. -/
def put (m : HashMap κ ν) (key : κ) (value : ν) : HashMap κ ν :=
  let list := (m.list key).getD []
  match pairsGet key list with
  | some _ =>
      { m with table := m.table.set (m.offset key) (some (pairsUpdate key value list)) }
  | none =>
      { table := m.table.set (m.offset key) (some ((key, value) :: list))
        size := m.size + 1 }

/-- `hash_map_remove`.  The loop looks at the first node before it tests for
the end of the list: on a list that has been emptied it dereferences a null
pointer, which is the `none` here. -/
def remove (m : HashMap κ ν) (key : κ) : Option (HashMap κ ν) :=
  match m.list key with
  | none => some m
  | some [] => none
  | some (p :: ps) =>
      match pairsGet key (p :: ps) with
      | some _ =>
          some
            { table := m.table.set (m.offset key) (some (pairsRemove key (p :: ps)))
              size := m.size - 1 }
      | none => some m

/-- The pairs in the order in which `hash_map_work` visits them. -/
def entries (m : HashMap κ ν) : List (κ × ν) :=
  m.table.flatMap fun list => list.getD []

/-- What every map built by the operations satisfies: each pair is in the list
its key hashes to, no key occurs twice, and `size` counts the pairs. -/
structure WellFormed (m : HashMap κ ν) : Prop where
  capacity_pos : 0 < m.capacity
  placed : ∀ (i : ℕ) (l : List (κ × ν)),
    m.table[i]? = some (some l) → ∀ p ∈ l, m.offset p.1 = i
  keys_nodup : ∀ (i : ℕ) (l : List (κ × ν)),
    m.table[i]? = some (some l) → (l.map Prod.fst).Nodup
  size_eq : m.size = m.entries.length

variable {m : HashMap κ ν}

theorem WellFormed.offset_lt (hm : m.WellFormed) (key : κ) :
    m.offset key < m.table.length :=
  HashKey.hashFunc_lt key m.capacity hm.capacity_pos

theorem WellFormed.getElem?_offset (hm : m.WellFormed) (key : κ) :
    m.table[m.offset key]? = some (m.list key) := by
  rw [list, List.getD_eq_getElem?_getD]
  simp [hm.offset_lt key]

/-- The pairs before, in and after the list of a key. -/
theorem WellFormed.entries_split (hm : m.WellFormed) (key : κ) :
    m.entries =
      (m.table.take (m.offset key)).flatMap (fun list => list.getD []) ++
        ((m.list key).getD [] ++
          (m.table.drop (m.offset key + 1)).flatMap fun list => list.getD []) := by
  have hlt := hm.offset_lt key
  have hget : m.table[m.offset key] = m.list key := by
    have h := hm.getElem?_offset key
    rw [List.getElem?_eq_getElem hlt] at h
    exact Option.some.inj h
  calc
    m.entries =
        (m.table.take (m.offset key) ++ m.table.drop (m.offset key)).flatMap
          (fun list => list.getD []) := by rw [List.take_append_drop]; rfl
    _ = _ := by
      rw [List.drop_eq_getElem_cons hlt, hget, List.flatMap_append, List.flatMap_cons]

/-- The same split after the list of a key has been replaced. -/
theorem WellFormed.entries_set (hm : m.WellFormed) (key : κ) (l : List (κ × ν)) (n : ℕ) :
    (HashMap.mk (m.table.set (m.offset key) (some l)) n).entries =
      (m.table.take (m.offset key)).flatMap (fun list => list.getD []) ++
        (l ++ (m.table.drop (m.offset key + 1)).flatMap fun list => list.getD []) := by
  change (m.table.set (m.offset key) (some l)).flatMap _ = _
  rw [List.set_eq_take_append_cons_drop, if_pos (hm.offset_lt key),
    List.flatMap_append, List.flatMap_cons]
  rfl

theorem WellFormed.mem_entries_iff_mem_list (hm : m.WellFormed) {key : κ} {v : ν} :
    (key, v) ∈ m.entries ↔ (key, v) ∈ (m.list key).getD [] := by
  constructor
  · intro h
    obtain ⟨b, hb, hmem⟩ := List.mem_flatMap.mp h
    cases b with
    | none => simp at hmem
    | some l =>
        obtain ⟨i, hi⟩ := List.mem_iff_getElem?.mp hb
        have hplace := hm.placed i l hi (key, v) hmem
        have hlist : some (m.list key) = some (some l) := by
          rw [← hm.getElem?_offset key, hplace, hi]
        rw [Option.some.inj hlist]
        exact hmem
  · intro h
    rw [hm.entries_split key]
    simp [h]

theorem get_eq_pairsGet (m : HashMap κ ν) (key : κ) :
    m.get key = pairsGet key ((m.list key).getD []) := by
  unfold get
  cases m.list key <;> rfl

theorem WellFormed.list_nodup (hm : m.WellFormed) (key : κ) :
    (((m.list key).getD []).map Prod.fst).Nodup := by
  cases h : m.list key with
  | none => simp
  | some l =>
      have hget := hm.getElem?_offset key
      rw [h] at hget
      exact hm.keys_nodup _ l hget

theorem pairsGet_eq_some_iff {key : κ} {v : ν} {l : List (κ × ν)}
    (hl : (l.map Prod.fst).Nodup) :
    pairsGet key l = some v ↔ (key, v) ∈ l := by
  constructor
  · intro h
    exact (perm_of_pairsGet_eq_some h).mem_iff.mpr (by simp)
  · intro h
    cases hget : pairsGet key l with
    | none =>
        exact absurd (List.mem_map_of_mem (f := Prod.fst) h)
          (pairsGet_eq_none_iff.mp hget)
    | some w =>
        have hperm := perm_of_pairsGet_eq_some hget
        rcases List.mem_cons.mp (hperm.mem_iff.mp h) with heq | hrest
        · rw [(Prod.mk.inj heq).2]
        · have hnd := (hperm.map Prod.fst).nodup_iff.mp hl
          rw [List.map_cons, List.nodup_cons] at hnd
          exact absurd (List.mem_map_of_mem (f := Prod.fst) hrest) hnd.1

/-- A lookup finds exactly the pairs of the map. -/
theorem WellFormed.get_eq_some_iff (hm : m.WellFormed) {key : κ} {v : ν} :
    m.get key = some v ↔ (key, v) ∈ m.entries := by
  rw [get_eq_pairsGet, pairsGet_eq_some_iff (hm.list_nodup key),
    hm.mem_entries_iff_mem_list]

theorem containsKey_eq (m : HashMap κ ν) (key : κ) :
    m.containsKey key = (m.get key).isSome := by
  unfold containsKey get
  cases m.list key <;> rfl

/-- Replacing the list of a key by one that holds only keys of the same bucket,
each once, keeps the map well formed. -/
theorem WellFormed.set (hm : m.WellFormed) {key : κ} {l : List (κ × ν)} {n : ℕ}
    (hplaced : ∀ p ∈ l, m.offset p.1 = m.offset key)
    (hnodup : (l.map Prod.fst).Nodup)
    (hsize : n + ((m.list key).getD []).length = m.size + l.length) :
    (HashMap.mk (m.table.set (m.offset key) (some l)) n).WellFormed where
  capacity_pos := by
    have h := hm.capacity_pos
    simpa [capacity] using h
  placed := by
    intro i l' hi p hp
    have hoff : (HashMap.mk (m.table.set (m.offset key) (some l)) n).offset p.1 =
        m.offset p.1 := by simp [offset, capacity]
    rw [hoff]
    by_cases hik : i = m.offset key
    · subst hik
      rw [List.getElem?_set_self (hm.offset_lt key)] at hi
      obtain rfl : l = l' := by simpa using hi
      exact hplaced p hp
    · rw [List.getElem?_set_ne (Ne.symm hik)] at hi
      exact hm.placed i l' hi p hp
  keys_nodup := by
    intro i l' hi
    by_cases hik : i = m.offset key
    · subst hik
      rw [List.getElem?_set_self (hm.offset_lt key)] at hi
      obtain rfl : l = l' := by simpa using hi
      exact hnodup
    · rw [List.getElem?_set_ne (Ne.symm hik)] at hi
      exact hm.keys_nodup i l' hi
  size_eq := by
    have hsplit := congrArg List.length (hm.entries_split key)
    have hold := hm.size_eq
    rw [hm.entries_set key l n]
    simp only [List.length_append] at hsplit ⊢
    change n = _
    omega

theorem wellFormed_init {capacity : ℕ} (h : 0 < capacity) :
    (init capacity : HashMap κ ν).WellFormed where
  capacity_pos := by simpa [HashMap.capacity, init] using h
  placed := by
    intro i l hi
    rw [init, List.getElem?_replicate] at hi
    split at hi <;> simp at hi
  keys_nodup := by
    intro i l hi
    rw [init, List.getElem?_replicate] at hi
    split at hi <;> simp at hi
  size_eq := by simp [entries, init]

theorem get_init (capacity : ℕ) (key : κ) :
    (init capacity : HashMap κ ν).get key = none := by
  have hlist : (init capacity : HashMap κ ν).list key = none := by
    rw [list, init, List.getD_eq_getElem?_getD, List.getElem?_replicate]
    split <;> rfl
  rw [get, hlist]

theorem put_of_some (value : ν) {key : κ} {old : ν}
    (h : pairsGet key ((m.list key).getD []) = some old) :
    m.put key value =
      ⟨m.table.set (m.offset key)
        (some (pairsUpdate key value ((m.list key).getD []))), m.size⟩ := by
  simp [put, h]

theorem put_of_none (value : ν) {key : κ}
    (h : pairsGet key ((m.list key).getD []) = none) :
    m.put key value =
      ⟨m.table.set (m.offset key) (some ((key, value) :: (m.list key).getD [])),
        m.size + 1⟩ := by
  simp [put, h]

theorem WellFormed.offset_of_mem_list (hm : m.WellFormed) {key : κ} {p : κ × ν}
    (hp : p ∈ (m.list key).getD []) : m.offset p.1 = m.offset key := by
  cases hl : m.list key with
  | none => simp [hl] at hp
  | some l =>
      have hget := hm.getElem?_offset key
      rw [hl] at hget hp
      exact hm.placed _ l hget p hp

theorem WellFormed.put (hm : m.WellFormed) (key : κ) (value : ν) :
    (m.put key value).WellFormed := by
  have hnd := hm.list_nodup key
  cases hget : pairsGet key ((m.list key).getD []) with
  | some old =>
      have hupd := perm_pairsUpdate (w := value) hget
      have hold := perm_of_pairsGet_eq_some hget
      rw [put_of_some value hget]
      refine hm.set ?_ ?_ ?_
      · intro p hp
        rcases List.mem_cons.mp (hupd.mem_iff.mp hp) with rfl | hrest
        · rfl
        · exact hm.offset_of_mem_list (hold.mem_iff.mpr (List.mem_cons_of_mem _ hrest))
      · have hndOld := (hold.map Prod.fst).nodup_iff.mp hnd
        exact (hupd.map Prod.fst).nodup_iff.mpr (by simpa using hndOld)
      · rw [hupd.length_eq, hold.length_eq]
        rfl
  | none =>
      rw [put_of_none value hget]
      refine hm.set ?_ ?_ ?_
      · intro p hp
        rcases List.mem_cons.mp hp with rfl | hrest
        · rfl
        · exact hm.offset_of_mem_list hrest
      · rw [List.map_cons, List.nodup_cons]
        exact ⟨pairsGet_eq_none_iff.mp hget, hnd⟩
      · simp only [List.length_cons]
        omega

/-- A key that is not in the map is added to its pairs. -/
theorem WellFormed.entries_put_of_none (hm : m.WellFormed) {key : κ} (value : ν)
    (h : m.get key = none) :
    (m.put key value).entries.Perm ((key, value) :: m.entries) := by
  rw [get_eq_pairsGet] at h
  rw [put_of_none value h, hm.entries_set key, hm.entries_split key]
  exact List.perm_middle

/-- Putting a key again with the value it has changes nothing. -/
theorem WellFormed.put_self (hm : m.WellFormed) {key : κ} {v : ν}
    (h : m.get key = some v) : m.put key v = m := by
  cases hl : m.list key with
  | none => simp [get, hl] at h
  | some l =>
      have hget : pairsGet key ((m.list key).getD []) = some v := by
        rw [← get_eq_pairsGet]
        exact h
      have hself := pairsUpdate_self hget
      rw [put_of_some v hget, hself, hl, Option.getD_some]
      have htable := hm.getElem?_offset key
      rw [hl] at htable
      have hset : m.table.set (m.offset key) (some l) = m.table := by
        apply List.ext_getElem?
        intro i
        by_cases hi : i = m.offset key
        · subst hi
          rw [List.getElem?_set_self (hm.offset_lt key), htable]
        · rw [List.getElem?_set_ne (Ne.symm hi)]
      rw [hset]

/-- A key that is in the map is removed without a null dereference; what is
left are the other pairs, and an overwrite of the key would have left the same
ones. -/
theorem WellFormed.remove_of_get (hm : m.WellFormed) {key : κ} {v : ν}
    (h : m.get key = some v) :
    ∃ m', m.remove key = some m' ∧ m'.WellFormed ∧
      m.entries.Perm ((key, v) :: m'.entries) ∧
      ∀ w, (m.put key w).entries.Perm ((key, w) :: m'.entries) := by
  have hnd := hm.list_nodup key
  cases hl : m.list key with
  | none => simp [get, hl] at h
  | some l =>
      have hget : pairsGet key l = some v := by simpa [get, hl] using h
      have hperm := perm_of_pairsGet_eq_some hget
      have hsplit := hm.entries_split key
      rw [hl] at hnd hsplit
      have hpos : 0 < m.size := by
        have hmem := hm.get_eq_some_iff.mp h
        have hlen := List.length_pos_of_mem hmem
        have hsize := hm.size_eq
        omega
      refine ⟨⟨m.table.set (m.offset key) (some (pairsRemove key l)), m.size - 1⟩,
        ?_, ?_, ?_, ?_⟩
      · cases l with
        | nil => simp at hget
        | cons p ps => simp [HashMap.remove, hl, hget]
      · refine hm.set ?_ ?_ ?_
        · intro p hp
          have hget' := hm.getElem?_offset key
          rw [hl] at hget'
          exact hm.placed _ l hget' p
            (hperm.mem_iff.mpr (List.mem_cons_of_mem _ hp))
        · have hnd' := (hperm.map Prod.fst).nodup_iff.mp hnd
          rw [List.map_cons, List.nodup_cons] at hnd'
          exact hnd'.2
        · have hlen := hperm.length_eq
          simp only [hl, Option.getD_some, List.length_cons] at hlen ⊢
          omega
      · rw [hsplit, hm.entries_set key]
        exact ((hperm.append_right _).append_left _).trans List.perm_middle
      · intro w
        have hupd := perm_pairsUpdate (w := w) hget
        rw [put_of_some w (by simpa [hl] using hget), hm.entries_set key,
          hm.entries_set key, hl]
        exact ((hupd.append_right _).append_left _).trans List.perm_middle

theorem WellFormed.list_put (hm : m.WellFormed) (key : κ) (value : ν) :
    (m.put key value).list key =
      some (match pairsGet key ((m.list key).getD []) with
        | some _ => pairsUpdate key value ((m.list key).getD [])
        | none => (key, value) :: (m.list key).getD []) := by
  have hlt := hm.offset_lt key
  cases hget : pairsGet key ((m.list key).getD []) with
  | some old =>
      rw [put_of_some value hget, list, List.getD_eq_getElem?_getD]
      simp [offset, capacity] at hlt ⊢
      simp [hlt]
  | none =>
      rw [put_of_none value hget, list, List.getD_eq_getElem?_getD]
      simp [offset, capacity] at hlt ⊢
      simp [hlt]

/-- The last of two values put under a key is the one that counts. -/
theorem WellFormed.put_put (hm : m.WellFormed) (key : κ) (v w : ν) :
    (m.put key v).put key w = m.put key w := by
  have hlist := hm.list_put key v
  have hoff : ∀ (l : List (κ × ν)) (n : ℕ),
      (HashMap.mk (m.table.set (m.offset key) (some l)) n).offset key = m.offset key := by
    intro l n
    simp [offset, capacity]
  cases hget : pairsGet key ((m.list key).getD []) with
  | some old =>
      rw [hget] at hlist
      have hget' : pairsGet key (((m.put key v).list key).getD []) = some v := by
        rw [hlist]
        exact pairsGet_pairsUpdate hget
      rw [put_of_some w hget', hlist, put_of_some v hget, put_of_some w hget]
      simp [hoff, List.set_set, pairsUpdate_pairsUpdate]
  | none =>
      rw [hget] at hlist
      have hself : HashKey.comparator key key = 0 :=
        (HashKey.comparator_eq_zero key key).mpr rfl
      have hget' : pairsGet key (((m.put key v).list key).getD []) = some v := by
        rw [hlist]
        simp [pairsGet, hself]
      rw [put_of_some w hget', hlist, put_of_none v hget, put_of_none w hget]
      simp [hoff, List.set_set, pairsUpdate, hself]

/-- Removing a key that is not in the map, where it returns at all, changes
nothing. -/
theorem eq_of_remove {m' : HashMap κ ν} {key : κ} (hget : m.get key = none)
    (h : m.remove key = some m') : m' = m := by
  rw [get_eq_pairsGet] at hget
  unfold remove at h
  cases hl : m.list key with
  | none => simpa [hl] using h.symm
  | some l =>
      cases l with
      | nil => simp [hl] at h
      | cons p ps =>
          rw [hl, Option.getD_some] at hget
          simpa [hl, hget] using h.symm

/-- No key occurs twice in the pairs of the map. -/
theorem WellFormed.entries_nodup (hm : m.WellFormed) :
    (m.entries.map Prod.fst).Nodup := by
  rw [entries, List.map_flatMap, List.nodup_flatMap]
  constructor
  · intro b hb
    cases b with
    | none => simp
    | some l =>
        obtain ⟨i, hi⟩ := List.mem_iff_getElem?.mp hb
        exact hm.keys_nodup i l hi
  · rw [List.pairwise_iff_getElem]
    intro i j hi hj hij key hkeyI hkeyJ
    -- a key found in two lists would hash to both indices
    have hplace : ∀ k (hk : k < m.table.length),
        key ∈ ((m.table[k]).getD []).map Prod.fst → m.offset key = k := by
      intro k hk hmem
      obtain ⟨p, hp, rfl⟩ := List.mem_map.mp hmem
      cases hl : m.table[k] with
      | none => simp [hl] at hp
      | some l =>
          rw [hl] at hp
          exact hm.placed k l (by rw [List.getElem?_eq_getElem hk, hl]) p hp
    have hI := hplace i hi hkeyI
    have hJ := hplace j hj hkeyJ
    omega

end HashMap

end EceLib
