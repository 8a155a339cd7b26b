import EceLib.HashMap.Nodes

/-!
# The nodes stand for the pairs

The map of lists of pairs is what a map of nodes stands for: every call has the
same result on both, is defined on both or on neither, and leaves nodes that
stand for the pairs again.
-/

namespace EceLib

open Support

/-! ## The first pair with a key -/

section Pairs

variable {κ ν : Type} [HashKey κ] {key : κ} {pre post : List (κ × ν)} {p : κ × ν}

theorem pairsGet_split (hpre : ∀ r ∈ pre, r.1 ≠ key) (hp : p.1 = key) :
    pairsGet key (pre ++ p :: post) = some p.2 := by
  induction pre with
  | nil => rw [List.nil_append, pairsGet, if_pos ((HashKey.comparator_eq_zero _ _).mpr hp)]
  | cons r pre ih =>
      obtain ⟨hr, hrest⟩ := List.forall_mem_cons.mp hpre
      rw [List.cons_append, pairsGet, if_neg (NodeMap.comparator_ne_zero hr), ih hrest]

theorem pairsUpdate_split (hpre : ∀ r ∈ pre, r.1 ≠ key) (hp : p.1 = key) (value : ν) :
    pairsUpdate key value (pre ++ p :: post) = pre ++ (p.1, value) :: post := by
  induction pre with
  | nil =>
      rw [List.nil_append, pairsUpdate, if_pos ((HashKey.comparator_eq_zero _ _).mpr hp),
        List.nil_append]
  | cons r pre ih =>
      obtain ⟨hr, hrest⟩ := List.forall_mem_cons.mp hpre
      rw [List.cons_append, pairsUpdate, if_neg (NodeMap.comparator_ne_zero hr), ih hrest,
        List.cons_append]

theorem pairsRemove_split (hpre : ∀ r ∈ pre, r.1 ≠ key) (hp : p.1 = key) :
    pairsRemove key (pre ++ p :: post) = pre ++ post := by
  induction pre with
  | nil => rw [List.nil_append, pairsRemove, if_pos ((HashKey.comparator_eq_zero _ _).mpr hp)]; rfl
  | cons r pre ih =>
      obtain ⟨hr, hrest⟩ := List.forall_mem_cons.mp hpre
      rw [List.cons_append, pairsRemove, if_neg (NodeMap.comparator_ne_zero hr), ih hrest,
        List.cons_append]

end Pairs

namespace NodeMap

variable {κ ν : Type} {m m' : NodeMap κ ν} {L : Layout κ ν}

/-! ## The calls -/

theorem LaidOut.listHead_eq (hL : m.LaidOut L) {i : ℕ} {b : Bucket κ ν} (hb : L.bucket i = some b) :
    m.listHead b.sentinel = some (first (b.nodes.map pairCell)) := by
  have hread : m.heap.read b.sentinel = some ⟨first (b.nodes.map pairCell), none⟩ :=
    (hL.linked hb).1
  rw [listHead, hread, Option.map_some]

/-- No loop over a list is too long. -/
theorem LaidOut.length_lt (hL : m.LaidOut L) {i : ℕ} {b : Bucket κ ν} (hb : L.bucket i = some b) :
    b.nodes.length < m.heap.top := by
  have hle := (hL.linked hb).length_le
  rwa [Bucket.cells, List.length_cons, List.length_map] at hle

theorem pairs_split {b : Bucket κ ν} {pre post : List (ℕ × κ × ν)} {q : ℕ × κ × ν}
    (hsplit : b.nodes = pre ++ q :: post) :
    b.pairs = pre.map Prod.snd ++ q.2 :: post.map Prod.snd := by
  rw [Bucket.pairs, hsplit, List.map_append, List.map_cons]

/-- A node gets another value. -/
theorem LaidOut.write (hL : m.LaidOut L) {i : ℕ} (hi : i < L.length) {b : Bucket κ ν}
    (hb : L.bucket i = some b) {pre post : List (ℕ × κ × ν)} {q : ℕ × κ × ν}
    (hsplit : b.nodes = pre ++ q :: post) (pair : κ × ν) :
    ∃ heap, m.heap.read q.1 = some ⟨first (post.map pairCell), some q.2⟩ ∧
      m.heap.write q.1 ⟨first (post.map pairCell), some pair⟩ = some heap ∧
      LaidOut { m with heap := heap }
        (L.set i (some ⟨b.sentinel, pre ++ (q.1, pair) :: post⟩)) := by
  have hlinked : Linked m.heap
      (((b.sentinel, none) :: pre.map pairCell) ++ pairCell q :: post.map pairCell) := by
    have hcells := hL.linked hb
    rw [Bucket.cells, hsplit, List.map_append, List.map_cons] at hcells
    exact hcells
  obtain ⟨heap, hwrite, hlinked', -, hsame⟩ := hlinked.write (some pair)
  have hread : m.heap.read q.1 = some ⟨first (post.map pairCell), some q.2⟩ :=
    hlinked.of_append.1
  have haddr : (Bucket.mk b.sentinel (pre ++ (q.1, pair) :: post)).addresses = b.addresses := by
    simp [Bucket.addresses, hsplit]
  have hown : q.1 ∈ L.owned i := by
    rw [Layout.owned_of_bucket hb]
    simp [Bucket.addresses, hsplit]
  refine ⟨heap, hread, hwrite, hL.set hi (hL.table_set hb rfl) ?_ ?_ ?_ ?_⟩
  · rw [Bucket.cells, List.map_append, List.map_cons]
    exact hlinked'
  · intro a ha
    rw [haddr] at ha
    exact Or.inl (Layout.owned_of_bucket hb ▸ ha)
  · intro a ha _
    exact hsame a (fun heq => ha (heq ▸ hown))
  · intro a ha hnot
    rw [haddr, ← Layout.owned_of_bucket hb] at hnot
    exact absurd ha hnot

/-- A list gets a new first node. -/
theorem LaidOut.prepend (hL : m.LaidOut L) {i : ℕ} (hi : i < L.length) {b : Bucket κ ν}
    (hb : L.bucket i = some b) (pair : κ × ν) :
    ∃ m', m.prepend b.sentinel pair = some m' ∧
      m'.LaidOut (L.set i (some ⟨b.sentinel, (m.heap.top, pair) :: b.nodes⟩)) ∧
      m'.size = m.size := by
  have hlinked : Linked m.heap ((b.sentinel, none) :: b.nodes.map pairCell) := hL.linked hb
  obtain ⟨heap, hwrite, hlinked', htop, hsame⟩ := hlinked.push (some pair)
  have hread : m.heap.read b.sentinel = some ⟨first (b.nodes.map pairCell), none⟩ := hlinked.1
  have hown := Layout.owned_of_bucket hb
  have hsentinel : b.sentinel ∈ L.owned i := by
    rw [hown]
    exact List.mem_cons_self
  refine ⟨{ m with heap := heap }, ?_, hL.set hi (hL.table_set hb rfl) hlinked' ?_ ?_ ?_, rfl⟩
  · have hwrite' : (m.heap.alloc ⟨first (b.nodes.map pairCell), some pair⟩).2.write b.sentinel
        ⟨some m.heap.top, none⟩ = some heap := hwrite
    simp only [NodeMap.prepend, hread, Option.bind_eq_bind, Option.bind_some, Heap.alloc_fst,
      hwrite']
  · intro a ha
    rw [hown]
    rcases List.mem_cons.mp ha with hs | hrest
    · exact Or.inl (hs ▸ List.mem_cons_self)
    · rcases List.mem_cons.mp hrest with hnew | hold
      · exact Or.inr (Nat.le_of_eq hnew.symm)
      · exact Or.inl (List.mem_cons_of_mem _ hold)
  · intro a ha hnot
    exact hsame a (fun heq => ha (heq ▸ hsentinel)) fun heq =>
      hnot (heq ▸ List.mem_cons_of_mem _ List.mem_cons_self)
  · intro a ha hnot
    rw [hown] at ha
    refine absurd ?_ hnot
    rcases List.mem_cons.mp ha with hs | hold
    · exact hs ▸ List.mem_cons_self
    · exact List.mem_cons_of_mem _ (List.mem_cons_of_mem _ hold)

section Calls

variable [HashKey κ]

theorem pairsGet_of_absent {b : Bucket κ ν} {key : κ} (habsent : ∀ r ∈ b.nodes, r.2.1 ≠ key) :
    pairsGet key b.pairs = none := by
  rw [pairsGet_eq_none_iff, Bucket.pairs, List.map_map]
  intro hmem
  obtain ⟨r, hr, heq⟩ := List.mem_map.mp hmem
  exact habsent r hr heq

/-- The nodes of a list are searched with the result of the pairs. -/
theorem LaidOut.find_eq (hL : m.LaidOut L) {i : ℕ} {b : Bucket κ ν} (hb : L.bucket i = some b)
    (key : κ) :
    ∃ found, m.find key m.heap.top (first (b.nodes.map pairCell)) = some found ∧
      found.map (fun q => q.2.2) = pairsGet key b.pairs := by
  have hlt := hL.length_lt hb
  have hlinked : Linked m.heap (b.nodes.map pairCell) := (hL.linked hb).2
  rcases exists_split key b.nodes with habsent | ⟨pre, q, post, hsplit, hpre, hq⟩
  · refine ⟨none, find_of_absent hlinked (Nat.le_of_lt hlt) habsent, ?_⟩
    rw [pairsGet_of_absent habsent, Option.map_none]
  · have hpairs := pairs_split hsplit
    rw [hsplit, List.length_append, List.length_cons] at hlt
    rw [hsplit] at hlinked ⊢
    refine ⟨some q, find_of_split hlinked (by omega) hpre hq, ?_⟩
    rw [hpairs, pairsGet_split (List.forall_mem_map.mpr hpre) hq, Option.map_some]

theorem LaidOut.get_eq (hL : m.LaidOut L) (key : κ) :
    m.get key = some ((L.toMap m.size).get key) := by
  rw [get, hL.list_eq, HashMap.get, hL.toMap_list]
  cases hb : L.bucket (m.offset key) with
  | none => rfl
  | some b =>
      obtain ⟨found, hfind, hvalue⟩ := hL.find_eq hb key
      simp only [Option.map_some, hL.listHead_eq hb, Option.bind_eq_bind, Option.bind_some, hfind,
        hvalue]

theorem LaidOut.containsKey_eq (hL : m.LaidOut L) (key : κ) :
    m.containsKey key = some ((L.toMap m.size).containsKey key) := by
  rw [containsKey, hL.list_eq, HashMap.containsKey, hL.toMap_list]
  cases hb : L.bucket (m.offset key) with
  | none => rfl
  | some b =>
      obtain ⟨found, hfind, hvalue⟩ := hL.find_eq hb key
      simp only [Option.map_some, hL.listHead_eq hb, Option.bind_eq_bind, Option.bind_some, hfind,
        ← hvalue, Option.isSome_map]

/-- A key that is there: its first node is freed, and the others of its list
stay where they are.  Its first pair is taken out of the pairs. -/
theorem LaidOut.remove_of_split (hL : m.LaidOut L) {key : κ} (hi : m.offset key < L.length)
    {b : Bucket κ ν} (hb : L.bucket (m.offset key) = some b) {pre post : List (ℕ × κ × ν)}
    {q : ℕ × κ × ν} (hsplit : b.nodes = pre ++ q :: post) (hpre : ∀ r ∈ pre, r.2.1 ≠ key)
    (hq : q.2.1 = key) :
    ∃ m', m.remove key = some m' ∧
      m'.LaidOut (L.set (m.offset key) (some ⟨b.sentinel, pre ++ post⟩)) ∧
      (L.toMap m.size).remove key =
        some (Layout.toMap (L.set (m.offset key) (some ⟨b.sentinel, pre ++ post⟩)) m'.size) := by
  have hcells : b.cells = (b.sentinel, none) :: (pre ++ q :: post).map pairCell := by
    rw [Bucket.cells, hsplit]
  have hlt := hL.length_lt hb
  rw [hsplit, List.length_append, List.length_cons] at hlt
  have hlinked : Linked m.heap ([] ++ (b.sentinel, none) :: (pre ++ q :: post).map pairCell) :=
    hcells ▸ hL.linked hb
  have hturns : pre.length < m.heap.top := by omega
  obtain ⟨heap, hloop, hlinked', -, hgone, hsame⟩ := removeLoop_of_split hlinked hturns hpre hq
  have hown : ∀ a, a ∈ L.owned (m.offset key) ↔
      a = b.sentinel ∨ a ∈ pre.map Prod.fst ∨ a = q.1 ∨ a ∈ post.map Prod.fst := by
    intro a
    rw [Layout.owned_of_bucket hb, Bucket.addresses, hsplit, List.map_append, List.map_cons,
      List.mem_cons, List.mem_append, List.mem_cons]
  have hkept : ∀ a, a ∈ (Bucket.mk b.sentinel (pre ++ post)).addresses ↔
      a = b.sentinel ∨ a ∈ pre.map Prod.fst ∨ a ∈ post.map Prod.fst := by
    intro a
    rw [Bucket.addresses, List.map_append, List.mem_cons, List.mem_append]
  have hframe : ∀ a, a ∉ L.owned (m.offset key) → heap.read a = m.heap.read a := by
    intro a ha
    rw [hown] at ha
    refine hsame a (fun hmem => ?_) fun hqa => ha (Or.inr (Or.inr (Or.inl hqa)))
    rcases List.mem_cons.mp hmem with hsentinel | hfront
    · exact ha (Or.inl hsentinel)
    · exact ha (Or.inr (Or.inl hfront))
  refine ⟨{ m with heap := heap, size := m.size - 1 }, ?_, ?_, ?_⟩
  · rw [remove, hL.list_eq, hb, Option.map_some]
    simp only [hL.listHead_eq hb, hsplit, Option.bind_eq_bind, Option.bind_some]
    exact hloop
  · refine hL.set hi (hL.table_set hb rfl) hlinked' ?_ (fun a ha _ => hframe a ha) ?_
    · intro a ha
      rw [hkept] at ha
      rw [hown]
      tauto
    · intro a ha hnot
      have hfreed : a = q.1 := by
        rw [hown] at ha
        rw [hkept] at hnot
        tauto
      rw [hfreed, hgone]
  · have hlist := hL.toMap_list m.size key
    have hpairs := pairs_split hsplit
    have hpre' : ∀ r ∈ pre.map Prod.snd, r.1 ≠ key := List.forall_mem_map.mpr hpre
    have hget : pairsGet key b.pairs = some q.2.2 := hpairs ▸ pairsGet_split hpre' hq
    have hrest : pairsRemove key b.pairs = (pre ++ post).map Prod.snd := by
      rw [hpairs, pairsRemove_split hpre' hq, List.map_append]
    rw [hb, Option.map_some] at hlist
    rw [L.toMap_set _ _ _ m.size, HashMap.remove, hlist, hL.offset_eq]
    cases hcases : b.pairs with
    | nil =>
        rw [hcases] at hget
        cases hget
    | cons p ps =>
        rw [hcases] at hget hrest
        simp only [hget, hrest]
        rfl

/-- `hash_map_remove` on the nodes and on the pairs. -/
theorem LaidOut.remove (hL : m.LaidOut L) {key : κ} (hi : m.offset key < L.length) :
    (m.remove key = none ∧ (L.toMap m.size).remove key = none) ∨
      ∃ m' L', m.remove key = some m' ∧ m'.LaidOut L' ∧
        (L.toMap m.size).remove key = some (L'.toMap m'.size) := by
  have hlist := hL.toMap_list m.size key
  cases hb : L.bucket (m.offset key) with
  | none =>
      rw [hb, Option.map_none] at hlist
      refine Or.inr ⟨m, L, ?_, hL, ?_⟩
      · rw [NodeMap.remove, hL.list_eq, hb, Option.map_none]
      · rw [HashMap.remove, hlist]
  | some b =>
      rw [hb, Option.map_some] at hlist
      have hremove : m.remove key =
          m.removeLoop key m.heap.top b.sentinel (first (b.nodes.map pairCell)) := by
        rw [NodeMap.remove, hL.list_eq, hb, Option.map_some]
        simp only [hL.listHead_eq hb, Option.bind_eq_bind, Option.bind_some]
      rcases exists_split key b.nodes with habsent | ⟨pre, q, post, hsplit, hpre, hq⟩
      · cases hnodes : b.nodes with
        | nil =>
            refine Or.inl ⟨?_, ?_⟩
            · rw [hremove, hnodes]
              cases m.heap.top with
              | zero => rfl
              | succ n => rfl
            · have hpairs : b.pairs = [] := by rw [Bucket.pairs, hnodes]; rfl
              rw [HashMap.remove, hlist, hpairs]
        | cons r nodes =>
            refine Or.inr ⟨m, L, ?_, hL, ?_⟩
            · rw [hremove]
              have hne : b.nodes ≠ [] := by
                rw [hnodes]
                exact List.cons_ne_nil _ _
              exact removeLoop_of_absent (hL.linked hb).2 hne
                (Nat.le_of_lt (hL.length_lt hb)) habsent b.sentinel
            · have hpairs : b.pairs = r.2 :: nodes.map Prod.snd := by rw [Bucket.pairs, hnodes]; rfl
              have hnone := pairsGet_of_absent habsent
              rw [hpairs] at hlist hnone
              simp only [HashMap.remove, hlist, hnone]
      · obtain ⟨m', hm', hL', heq⟩ := hL.remove_of_split hi hb hsplit hpre hq
        exact Or.inr ⟨m', _, hm', hL', heq⟩

/-- The list of a key is there afterwards, and empty if it is new. -/
theorem LaidOut.ensureList (hL : m.LaidOut L) {key : κ} (hi : m.offset key < L.length) :
    ∃ m₁ L₁ b, m.ensureList key = (m₁, b.sentinel) ∧ m₁.LaidOut L₁ ∧
      L₁.bucket (m.offset key) = some b ∧ m₁.size = m.size ∧ L₁.length = L.length ∧
      b.pairs = ((L.toMap m.size).list key).getD [] ∧
      ∀ c, L₁.set (m.offset key) (some c) = L.set (m.offset key) (some c) := by
  have hlist := hL.toMap_list m.size key
  rw [NodeMap.ensureList, hL.list_eq]
  cases hb : L.bucket (m.offset key) with
  | some b =>
      rw [hb] at hlist
      exact ⟨m, L, b, rfl, hL, hb, rfl, rfl, by rw [hlist]; rfl, fun _ => rfl⟩
  | none =>
      rw [hb] at hlist
      have halloc := m.heap.read_alloc ⟨none, none⟩
      have hown : L.owned (m.offset key) = [] := by rw [Layout.owned, hb]; rfl
      refine ⟨_, L.set (m.offset key) (some ⟨m.heap.top, []⟩), ⟨m.heap.top, []⟩, rfl, ?_,
        by rw [L.bucket_set hi, if_pos rfl], rfl, List.length_set, by rw [hlist]; rfl,
        fun c => List.set_set _⟩
      refine hL.set hi ?_ ⟨(halloc _).trans (if_pos rfl), trivial⟩ ?_ ?_ ?_
      · rw [hL.table_eq, List.map_set]
        rfl
      · intro a ha
        rw [List.mem_singleton.mp ha]
        exact Or.inr (Nat.le_refl _)
      · intro a _ hnot
        have hne : a ≠ m.heap.top := fun heq => hnot (heq ▸ List.mem_cons_self)
        exact (halloc a).trans (if_neg hne)
      · intro a ha _
        rw [hown] at ha
        cases ha

/-- `hash_map_put` on the nodes and on the pairs. -/
theorem LaidOut.put (hL : m.LaidOut L) {key : κ} (hi : m.offset key < L.length) (value : ν) :
    ∃ m' L', m.put key value = some m' ∧ m'.LaidOut L' ∧
      (L.toMap m.size).put key value = L'.toMap m'.size := by
  obtain ⟨m₁, L₁, b, hensure, hL₁, hb, hsize, hlen, hpairs, hset⟩ := hL.ensureList hi
  have hoffset := hL.offset_eq m.size key
  have hi₁ : m.offset key < L₁.length := hlen ▸ hi
  have hhead := hL₁.listHead_eq hb
  have hlt := hL₁.length_lt hb
  have hlinked : Linked m₁.heap (b.nodes.map pairCell) := (hL₁.linked hb).2
  rcases exists_split key b.nodes with habsent | ⟨pre, q, post, hsplit, hpre, hq⟩
  · have hfind := find_of_absent hlinked (Nat.le_of_lt hlt) habsent
    obtain ⟨m', hprepend, hL', hsize'⟩ := hL₁.prepend hi₁ hb (key, value)
    refine ⟨{ m' with size := m'.size + 1 }, _, ?_, ⟨hL'.table_eq, hL'.linked, hL'.disjoint,
      hL'.owned⟩, ?_⟩
    · simp only [NodeMap.put, hensure, hhead, hfind, hprepend, Option.bind_eq_bind,
        Option.bind_some]
    · have hnone := pairsGet_of_absent habsent
      rw [hpairs] at hnone
      rw [HashMap.put_of_none value hnone, hset, L.toMap_set _ _ _ m.size, hoffset, hsize', hsize,
        ← hpairs]
      rfl
  · rw [hsplit, List.length_append, List.length_cons] at hlt
    rw [hsplit] at hlinked
    have hfind := find_of_split hlinked (by omega : pre.length < m₁.heap.top) hpre hq
    rw [← hsplit] at hfind
    obtain ⟨heap, hread, hwrite, hL'⟩ := hL₁.write hi₁ hb hsplit (q.2.1, value)
    refine ⟨{ m₁ with heap := heap }, _, ?_, hL', ?_⟩
    · simp only [NodeMap.put, hensure, hhead, hfind, hread, hwrite, Option.bind_eq_bind,
        Option.bind_some]
    · have hsplit' := pairs_split hsplit
      have hpre' : ∀ r ∈ pre.map Prod.snd, r.1 ≠ key := List.forall_mem_map.mpr hpre
      have hget : pairsGet key b.pairs = some q.2.2 := hsplit' ▸ pairsGet_split hpre' hq
      rw [hpairs] at hget
      rw [HashMap.put_of_some value hget, hset, L.toMap_set _ _ _ m.size, hoffset, hsize, ← hpairs,
        hsplit', pairsUpdate_split hpre' hq value]
      simp only [Bucket.pairs, List.map_append, List.map_cons]
      rfl

end Calls

/-! ## The nodes stand for the pairs -/

/-- The nodes of `m` are those of the lists of `hm`. -/
def Represents (m : NodeMap κ ν) (hm : HashMap κ ν) : Prop :=
  ∃ L, m.LaidOut L ∧ L.toMap m.size = hm

theorem represents_init (capacity : ℕ) :
    (init capacity : NodeMap κ ν).Represents (HashMap.init capacity) := by
  have hnone : ∀ i,
      Layout.bucket (List.replicate capacity (none : Option (Bucket κ ν))) i = none := by
    intro i
    rw [Layout.bucket, List.getD_eq_getElem?_getD, List.getElem?_replicate]
    split
    · rfl
    · rfl
  refine ⟨List.replicate capacity none, ⟨?_, ?_, ?_, ?_⟩, ?_⟩
  · rw [List.map_replicate]
    rfl
  · intro i b hb
    rw [hnone] at hb
    cases hb
  · intro i j a ha
    rw [Layout.owned, hnone] at ha
    cases ha
  · intro a ha
    cases ha
  · rw [Layout.toMap, List.map_replicate]
    rfl

section Refinement

variable [HashKey κ]

variable {hm hm' : HashMap κ ν}

theorem LaidOut.offset_lt (hL : m.LaidOut L) (hwf : (L.toMap m.size).WellFormed) (key : κ) :
    m.offset key < L.length := by
  have hlt := hwf.offset_lt key
  rwa [hL.offset_eq, Layout.toMap, List.length_map] at hlt

theorem Represents.get_eq (h : m.Represents hm) (key : κ) : m.get key = some (hm.get key) := by
  obtain ⟨L, hL, rfl⟩ := h
  exact hL.get_eq key

theorem Represents.put (h : m.Represents hm) (hwf : hm.WellFormed) (key : κ) (value : ν) :
    ∃ m', m.put key value = some m' ∧ m'.Represents (hm.put key value) := by
  obtain ⟨L, hL, rfl⟩ := h
  obtain ⟨m', L', hput, hL', heq⟩ := hL.put (hL.offset_lt hwf key) value
  exact ⟨m', hput, L', hL', heq.symm⟩

/-- Where the removal is defined on the pairs, it is on the nodes. -/
theorem Represents.remove (h : m.Represents hm) (hwf : hm.WellFormed) {key : κ}
    (hremove : hm.remove key = some hm') :
    ∃ m', m.remove key = some m' ∧ m'.Represents hm' := by
  obtain ⟨L, hL, rfl⟩ := h
  rcases hL.remove (hL.offset_lt hwf key) with ⟨-, hnone⟩ | ⟨m', L', hm', hL', heq⟩
  · rw [hnone] at hremove
    cases hremove
  · rw [heq, Option.some.injEq] at hremove
    exact ⟨m', hm', L', hL', hremove⟩

theorem Represents.remove_eq_none (h : m.Represents hm) (hwf : hm.WellFormed) {key : κ}
    (hnone : hm.remove key = none) : m.remove key = none := by
  obtain ⟨L, hL, rfl⟩ := h
  rcases hL.remove (hL.offset_lt hwf key) with ⟨hnone', -⟩ | ⟨m', L', -, -, heq⟩
  · exact hnone'
  · rw [heq] at hnone
    cases hnone

/-- One call on the nodes and on the pairs. -/
theorem Represents.exec (h : m.Represents hm) (hwf : hm.WellFormed) (c : MapCall κ ν) :
    (m.exec c = none ∧ hm.exec c = none) ∨
      ∃ m' hm' r, m.exec c = some (m', r) ∧ hm.exec c = some (hm', r) ∧ m'.Represents hm' ∧
        hm'.WellFormed := by
  cases c with
  | put key value =>
      obtain ⟨m', hput, hrep⟩ := h.put hwf key value
      refine Or.inr ⟨m', _, _, ?_, rfl, hrep, hwf.put key value⟩
      rw [NodeMap.exec, hput, Option.map_some]
  | get key =>
      refine Or.inr ⟨m, _, _, ?_, rfl, h, hwf⟩
      rw [NodeMap.exec, h.get_eq, Option.map_some]
  | containsKey key =>
      obtain ⟨L, hL, rfl⟩ := h
      refine Or.inr ⟨m, _, _, ?_, rfl, ⟨L, hL, rfl⟩, hwf⟩
      rw [NodeMap.exec, hL.containsKey_eq, Option.map_some]
  | remove key =>
      cases hremove : hm.remove key with
      | none =>
          refine Or.inl ⟨?_, ?_⟩
          · rw [NodeMap.exec, h.remove_eq_none hwf hremove, Option.map_none]
          · rw [HashMap.exec, hremove, Option.map_none]
      | some hm' =>
          obtain ⟨m', hm₁, hrep⟩ := h.remove hwf hremove
          refine Or.inr ⟨m', hm', MapResult.done, ?_, ?_, hrep, hwf.wellFormed_remove hremove⟩
          · rw [NodeMap.exec, hm₁, Option.map_some]
          · rw [HashMap.exec, hremove, Option.map_some]

/-- A run of calls on the nodes is one on the pairs. -/
theorem Represents.run (h : m.Represents hm) (hwf : hm.WellFormed)
    {cs : List (MapCall κ ν)} (hrun : Support.run NodeMap.step m cs = some m') :
    ∃ hm', Support.run HashMap.step hm cs = some hm' ∧ m'.Represents hm' ∧ hm'.WellFormed := by
  induction cs generalizing m hm with
  | nil =>
      obtain rfl : m = m' := Option.some.inj hrun
      exact ⟨hm, rfl, h, hwf⟩
  | cons c cs ih =>
      obtain ⟨m₁, hstep, hrest⟩ := Support.run_cons_eq_some hrun
      rcases h.exec hwf c with ⟨hnone, -⟩ | ⟨m₂, hm₂, r, hexec, hexec', hrep, hwf'⟩
      · rw [NodeMap.step, hnone] at hstep
        cases hstep
      · rw [NodeMap.step, hexec, Option.map_some, Option.some.injEq] at hstep
        obtain rfl : m₂ = m₁ := hstep
        obtain ⟨hm', hrun', hrep', hwf''⟩ := ih hrep hwf' hrest
        refine ⟨hm', ?_, hrep', hwf''⟩
        rw [Support.run_cons, HashMap.step, hexec', Option.map_some, Option.bind_some]
        exact hrun'

/-- The calls on the nodes return what those on the pairs return, and are defined
just where these are. -/
theorem Represents.execAll (h : m.Represents hm) (hwf : hm.WellFormed)
    (cs : List (MapCall κ ν)) :
    (m.execAll cs).map Prod.snd = (hm.execAll cs).map Prod.snd := by
  induction cs generalizing m hm with
  | nil => rfl
  | cons c cs ih =>
      rcases h.exec hwf c with ⟨hnone, hnone'⟩ | ⟨m₁, hm₁, r, hexec, hexec', hrep, hwf'⟩
      · rw [NodeMap.execAll, HashMap.execAll, hnone, hnone']
        rfl
      · have hrest := congrArg (Option.map (r :: ·)) (ih hrep hwf')
        rw [NodeMap.execAll, HashMap.execAll, hexec, hexec', Option.bind_some, Option.bind_some,
          Option.map_map, Option.map_map]
        simpa only [Option.map_map, Function.comp_def] using hrest

theorem execAll_init_eq {capacity : ℕ} (hcapacity : 0 < capacity) (cs : List (MapCall κ ν)) :
    ((init capacity : NodeMap κ ν).execAll cs).map Prod.snd =
      ((HashMap.init capacity : HashMap κ ν).execAll cs).map Prod.snd :=
  (represents_init capacity).execAll (HashMap.wellFormed_init hcapacity) cs

end Refinement

end NodeMap

end EceLib
