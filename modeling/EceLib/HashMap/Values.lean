import EceLib.HashMap.Refinement

/-!
# Maps with other values

A hash map with its values exchanged by a function has its pairs at the same
places.  An update of the one map is an update of the other, also where the
function changes at the key that is updated.
-/

namespace EceLib

variable {κ ν μ : Type}

/-- The pairs of a list with other values. -/
def pairsMap (f : ν → μ) (l : List (κ × ν)) : List (κ × μ) := l.map (Prod.map id f)

theorem keys_pairsMap (f : ν → μ) (l : List (κ × ν)) :
    (pairsMap f l).map Prod.fst = l.map Prod.fst := by
  rw [pairsMap, List.map_map]
  rfl

theorem pairsMap_congr {f g : ν → μ} {l : List (κ × ν)} (hf : ∀ p ∈ l, f p.2 = g p.2) :
    pairsMap f l = pairsMap g l :=
  List.map_congr_left fun p hp => by rw [Prod.map, Prod.map, hf p hp]

/-- Behind the pair with the key there is no other one. -/
private theorem pairsMap_tail {f g : ν → μ} {key : κ} {p : κ × ν} {ps : List (κ × ν)}
    (hp : p.1 = key)
    (hnodup : ((p :: ps).map Prod.fst).Nodup)
    (hf : ∀ q ∈ p :: ps, q.1 ≠ key → f q.2 = g q.2) : pairsMap f ps = pairsMap g ps := by
  rw [List.map_cons, List.nodup_cons, hp] at hnodup
  refine pairsMap_congr fun q hq => hf q (List.mem_cons_of_mem _ hq) ?_
  rintro rfl
  exact hnodup.1 (List.mem_map_of_mem hq)

/-- A hash map with other values. -/
def HashMap.mapValues (f : ν → μ) (m : HashMap κ ν) : HashMap κ μ where
  table := m.table.map (Option.map (pairsMap f))
  size := m.size

theorem HashMap.entries_mapValues (f : ν → μ) (m : HashMap κ ν) :
    (m.mapValues f).entries = pairsMap f m.entries := by
  rw [entries, entries, mapValues, pairsMap, List.flatMap_map, List.map_flatMap]
  congr 1
  funext o
  cases o with
  | none => rfl
  | some l => rfl

variable [HashKey κ]

/-! ## The loops over one list -/

section Pairs

variable {f g : ν → μ} {key : κ} {l : List (κ × ν)}

theorem pairsGet_pairsMap : pairsGet key (pairsMap f l) = (pairsGet key l).map f := by
  induction l with
  | nil => rfl
  | cons p ps ih =>
      rw [pairsMap, List.map_cons, pairsGet, pairsGet, ← pairsMap, ih]
      by_cases hp : HashKey.comparator p.1 key = 0
      · simp [hp]
      · simp [hp]

theorem pairsMap_pairsUpdate (hnodup : (l.map Prod.fst).Nodup)
    (hf : ∀ p ∈ l, p.1 ≠ key → f p.2 = g p.2) (v : ν) :
    pairsMap f (pairsUpdate key v l) = pairsUpdate key (f v) (pairsMap g l) := by
  induction l with
  | nil => rfl
  | cons p ps ih =>
      have hmap : pairsMap g (p :: ps) = (p.1, g p.2) :: pairsMap g ps := rfl
      rw [hmap, pairsUpdate, pairsUpdate]
      by_cases hp : p.1 = key
      · have hzero := (HashKey.comparator_eq_zero p.1 key).mpr hp
        rw [if_pos hzero, if_pos hzero, ← pairsMap_tail hp hnodup hf]
        rfl
      · have hne : HashKey.comparator p.1 key ≠ 0 := fun hzero =>
          hp ((HashKey.comparator_eq_zero p.1 key).mp hzero)
        have hrest := ih (List.nodup_cons.mp hnodup).2 fun q hq =>
          hf q (List.mem_cons_of_mem _ hq)
        rw [if_neg hne, if_neg hne, ← hrest, ← hf p List.mem_cons_self hp]
        rfl

theorem pairsMap_pairsRemove (hnodup : (l.map Prod.fst).Nodup)
    (hf : ∀ p ∈ l, p.1 ≠ key → f p.2 = g p.2) :
    pairsMap f (pairsRemove key l) = pairsRemove key (pairsMap g l) := by
  induction l with
  | nil => rfl
  | cons p ps ih =>
      have hmap : pairsMap g (p :: ps) = (p.1, g p.2) :: pairsMap g ps := rfl
      rw [hmap, pairsRemove, pairsRemove]
      by_cases hp : p.1 = key
      · have hzero := (HashKey.comparator_eq_zero p.1 key).mpr hp
        rw [if_pos hzero, if_pos hzero, pairsMap_tail hp hnodup hf]
      · have hne : HashKey.comparator p.1 key ≠ 0 := fun hzero =>
          hp ((HashKey.comparator_eq_zero p.1 key).mp hzero)
        have hrest := ih (List.nodup_cons.mp hnodup).2 fun q hq =>
          hf q (List.mem_cons_of_mem _ hq)
        rw [if_neg hne, if_neg hne, ← hrest, ← hf p List.mem_cons_self hp]
        rfl

end Pairs

/-! ## The map -/

namespace HashMap

variable {f g : ν → μ} {m m' : HashMap κ ν} {key : κ}

@[simp] theorem offset_mapValues (f : ν → μ) (m : HashMap κ ν) (key : κ) :
    (m.mapValues f).offset key = m.offset key := by
  rw [offset, offset, capacity, capacity, mapValues, List.length_map]

theorem list_mapValues (f : ν → μ) (m : HashMap κ ν) (key : κ) :
    (m.mapValues f).list key = (m.list key).map (pairsMap f) := by
  rw [list, list, offset_mapValues, mapValues, List.getD_eq_getElem?_getD,
    List.getD_eq_getElem?_getD, List.getElem?_map]
  cases m.table[m.offset key]? with
  | none => rfl
  | some o => rfl

theorem getD_list_mapValues (f : ν → μ) (m : HashMap κ ν) (key : κ) :
    ((m.mapValues f).list key).getD [] = pairsMap f ((m.list key).getD []) := by
  rw [list_mapValues]
  cases m.list key with
  | none => rfl
  | some l => rfl

theorem get_mapValues (f : ν → μ) (m : HashMap κ ν) (key : κ) :
    (m.mapValues f).get key = (m.get key).map f := by
  rw [get_eq_pairsGet, get_eq_pairsGet, getD_list_mapValues, pairsGet_pairsMap]

/-- The table with one list exchanged: the other lists do not have the key. -/
theorem WellFormed.mapValues_set (hm : m.WellFormed)
    (hf : ∀ e ∈ m.entries, e.1 ≠ key → f e.2 = g e.2) (l : List (κ × ν)) :
    (m.table.set (m.offset key) (some l)).map (Option.map (pairsMap f)) =
      (m.table.map (Option.map (pairsMap g))).set (m.offset key) (some (pairsMap f l)) := by
  rw [List.map_set, Option.map_some]
  apply List.ext_getElem?
  intro i
  by_cases hi : m.offset key = i
  · rw [List.getElem?_set, List.getElem?_set, if_pos hi, if_pos hi, List.length_map,
      List.length_map]
  · rw [List.getElem?_set_ne hi, List.getElem?_set_ne hi, List.getElem?_map, List.getElem?_map]
    cases hget : m.table[i]? with
    | none => rfl
    | some o =>
        cases o with
        | none => rfl
        | some list =>
            have hlist : pairsMap f list = pairsMap g list := pairsMap_congr fun p hp => by
              refine hf p (List.mem_flatMap.mpr ⟨some list, List.mem_of_getElem? hget, hp⟩) ?_
              rintro rfl
              exact hi (hm.placed i list hget p hp)
            rw [Option.map_some, Option.map_some, Option.map_some, Option.map_some, hlist]

/-- The pairs in the list of a key are pairs of the map. -/
theorem WellFormed.mem_entries_of_mem_list (hm : m.WellFormed) {p : κ × ν}
    (hp : p ∈ (m.list key).getD []) : p ∈ m.entries := by
  rw [hm.entries_split key]
  exact List.mem_append_right _ (List.mem_append_left _ hp)

theorem WellFormed.mapValues_put (hm : m.WellFormed)
    (hf : ∀ e ∈ m.entries, e.1 ≠ key → f e.2 = g e.2) (v : ν) :
    (m.put key v).mapValues f = (m.mapValues g).put key (f v) := by
  have hlist : ∀ p ∈ (m.list key).getD [], p.1 ≠ key → f p.2 = g p.2 := fun p hp =>
    hf p (hm.mem_entries_of_mem_list hp)
  have hget : pairsGet key (((m.mapValues g).list key).getD []) =
      (pairsGet key ((m.list key).getD [])).map g := by
    rw [getD_list_mapValues, pairsGet_pairsMap]
  cases hold : pairsGet key ((m.list key).getD []) with
  | none =>
      rw [hold, Option.map_none] at hget
      have hrest : pairsMap f ((m.list key).getD []) = pairsMap g ((m.list key).getD []) := by
        refine pairsMap_congr fun p hp => hlist p hp ?_
        rintro rfl
        exact pairsGet_eq_none_iff.mp hold (List.mem_map_of_mem hp)
      rw [put_of_none v hold, put_of_none (f v) hget, getD_list_mapValues, offset_mapValues,
        mapValues, hm.mapValues_set hf, ← hrest]
      rfl
  | some old =>
      rw [hold, Option.map_some] at hget
      rw [put_of_some v hold, put_of_some (f v) hget, getD_list_mapValues, offset_mapValues,
        mapValues, hm.mapValues_set hf, pairsMap_pairsUpdate (hm.list_nodup key) hlist]
      rfl

theorem WellFormed.mapValues_remove (hm : m.WellFormed)
    (hf : ∀ e ∈ m.entries, e.1 ≠ key → f e.2 = g e.2) {v : ν} (hget : m.get key = some v) :
    ∃ m', m.remove key = some m' ∧ (m.mapValues g).remove key = some (m'.mapValues f) := by
  have hlist : ∀ p ∈ (m.list key).getD [], p.1 ≠ key → f p.2 = g p.2 := fun p hp =>
    hf p (hm.mem_entries_of_mem_list hp)
  have hnodup := hm.list_nodup key
  cases hl : m.list key with
  | none => simp [get, hl] at hget
  | some l =>
      have hpairs : pairsGet key l = some v := by simpa [get, hl] using hget
      rw [hl, Option.getD_some] at hlist hnodup
      cases l with
      | nil => cases hpairs
      | cons p ps =>
          have hget' : pairsGet key ((p.1, g p.2) :: pairsMap g ps) = some (g v) := by
            have hmap : pairsGet key (pairsMap g (p :: ps)) =
                (pairsGet key (p :: ps)).map g := pairsGet_pairsMap
            rwa [hpairs] at hmap
          have hlist' : (m.mapValues g).list key = some ((p.1, g p.2) :: pairsMap g ps) := by
            rw [list_mapValues, hl]
            rfl
          refine ⟨⟨m.table.set (m.offset key) (some (pairsRemove key (p :: ps))), m.size - 1⟩,
            ?_, ?_⟩
          · simp only [remove, hl, hpairs]
          · simp only [remove, hlist', hget']
            rw [offset_mapValues, mapValues, mapValues, hm.mapValues_set hf,
              pairsMap_pairsRemove hnodup hlist]
            rfl

end HashMap

end EceLib
