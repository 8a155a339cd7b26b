import EceLib.HashMap.Refinement
import EceLib.Support.Chain

/-!
# The nodes of the hash map

The model of `lib/hash_map.c` over `lib/linked_list.c` with the nodes of the
lists in a heap.  A `linked_list` is the address of its sentinel node, whose
`data` is not set.  Any other node holds its pair, which is allocated and freed
together with it.  The result `none` stands for undefined behaviour, such as an
access to a node that has been freed, and for a loop that does not end.

What the loops over a list do is said with its nodes in their order, in front of
and behind the first one that has the key.
-/

namespace EceLib

open Support

/-- The table has the addresses of the sentinel nodes. -/
structure NodeMap (κ ν : Type) where
  heap : Heap (Node (Option (κ × ν)))
  table : List (Option ℕ)
  size : ℕ

namespace NodeMap

variable {κ ν : Type} [HashKey κ]

/-! ## The functions -/

/-- `hash_map_init`. -/
def init (capacity : ℕ) : NodeMap κ ν where
  heap := Heap.empty
  table := List.replicate capacity none
  size := 0

def offset (m : NodeMap κ ν) (key : κ) : ℕ := HashKey.hashFunc key m.table.length

/-- `map->table[map->hash_func(key, map->capacity)]`. -/
def list (m : NodeMap κ ν) (key : κ) : Option ℕ := m.table.getD (m.offset key) none

/-- `linked_list_head`. -/
def listHead (m : NodeMap κ ν) (list : ℕ) : Option (Option ℕ) := (m.heap.read list).map Node.next

/-- The loop over a list for the node with a key, which is `none` inside if
there is no such node.  A loop through more nodes than there have ever been
does not end. -/
def find (m : NodeMap κ ν) (key : κ) : ℕ → Option ℕ → Option (Option (ℕ × κ × ν))
  | _, none => some none
  | 0, some _ => none
  | n + 1, some head => do
      let node ← m.heap.read head
      let pair ← node.data
      if HashKey.comparator pair.1 key = 0 then some (some (head, pair)) else m.find key n node.next

/-- `hash_map_get`. -/
def get (m : NodeMap κ ν) (key : κ) : Option (Option ν) :=
  match m.list key with
  | none => some none
  | some list => do
      let head ← m.listHead list
      let found ← m.find key m.heap.top head
      some (found.map fun q => q.2.2)

/-- `hash_map_contains_key`. -/
def containsKey (m : NodeMap κ ν) (key : κ) : Option Bool :=
  match m.list key with
  | none => some false
  | some list => do
      let head ← m.listHead list
      let found ← m.find key m.heap.top head
      some found.isSome

/-- The list of a key, which is allocated if there is none. -/
def ensureList (m : NodeMap κ ν) (key : κ) : NodeMap κ ν × ℕ :=
  match m.list key with
  | some list => (m, list)
  | none =>
      let (list, heap) := m.heap.alloc ⟨none, none⟩
      ({ m with heap := heap, table := m.table.set (m.offset key) (some list) }, list)

/-- `linked_list_prepend`. -/
def prepend (m : NodeMap κ ν) (list : ℕ) (pair : κ × ν) : Option (NodeMap κ ν) := do
  let sentinel ← m.heap.read list
  let (node, heap) := m.heap.alloc ⟨sentinel.next, some pair⟩
  let heap ← heap.write list ⟨some node, sentinel.data⟩
  some { m with heap := heap }

/-- `hash_map_put`. -/
def put (m : NodeMap κ ν) (key : κ) (value : ν) : Option (NodeMap κ ν) := do
  let (m, list) := m.ensureList key
  let head ← m.listHead list
  match ← m.find key m.heap.top head with
  | some (addr, pair) => do
      let node ← m.heap.read addr
      let heap ← m.heap.write addr ⟨node.next, some (pair.1, value)⟩
      some { m with heap := heap }
  | none => do
      let m ← m.prepend list (key, value)
      some { m with size := m.size + 1 }

/-- The loop of `hash_map_remove`.  It reads the key of the current node before
it looks whether there is one. -/
def removeLoop (m : NodeMap κ ν) (key : κ) : ℕ → ℕ → Option ℕ → Option (NodeMap κ ν)
  | 0, _, _ => none
  | _ + 1, _, none => none
  | n + 1, previous, some current => do
      let node ← m.heap.read current
      let pair ← node.data
      if HashKey.comparator pair.1 key = 0 then do
        let before ← m.heap.read previous
        let heap ← m.heap.write previous ⟨node.next, before.data⟩
        let heap ← heap.free current
        some { m with heap := heap, size := m.size - 1 }
      else
        match node.next with
        | none => some m
        | some next => m.removeLoop key n current (some next)

/-- `hash_map_remove`. -/
def remove (m : NodeMap κ ν) (key : κ) : Option (NodeMap κ ν) :=
  match m.list key with
  | none => some m
  | some list => do
      let head ← m.listHead list
      m.removeLoop key m.heap.top list head

/-- One call, without a result where it is not defined. -/
def exec (m : NodeMap κ ν) : MapCall κ ν → Option (NodeMap κ ν × MapResult ν)
  | .put key value => (m.put key value).map fun m' => (m', .done)
  | .get key => (m.get key).map fun v => (m, .value v)
  | .containsKey key => (m.containsKey key).map fun b => (m, .found b)
  | .remove key => (m.remove key).map fun m' => (m', .done)

def step (m : NodeMap κ ν) (c : MapCall κ ν) : Option (NodeMap κ ν) := (m.exec c).map Prod.fst

/-- The map after the calls, made in their order, and what they returned. -/
def execAll : NodeMap κ ν → List (MapCall κ ν) → Option (NodeMap κ ν × List (MapResult ν))
  | m, [] => some (m, [])
  | m, c :: cs =>
      (m.exec c).bind fun p => (execAll p.1 cs).map fun q => (q.1, p.2 :: q.2)

end NodeMap

/-! ## Where the nodes are -/

/-- One list: its sentinel node, and the other nodes with their pairs. -/
structure Bucket (κ ν : Type) where
  sentinel : ℕ
  nodes : List (ℕ × κ × ν)

/-- A node of a pair. -/
def pairCell {κ ν : Type} (q : ℕ × κ × ν) : ℕ × Option (κ × ν) := (q.1, some q.2)

namespace Bucket

variable {κ ν : Type}

def cells (b : Bucket κ ν) : List (ℕ × Option (κ × ν)) := (b.sentinel, none) :: b.nodes.map pairCell

def addresses (b : Bucket κ ν) : List ℕ := b.sentinel :: b.nodes.map Prod.fst

def pairs (b : Bucket κ ν) : List (κ × ν) := b.nodes.map Prod.snd

theorem map_fst_cells (b : Bucket κ ν) : b.cells.map Prod.fst = b.addresses := by
  simp [cells, addresses, pairCell, Function.comp_def]

end Bucket

/-- The lists of a table. -/
abbrev Layout (κ ν : Type) := List (Option (Bucket κ ν))

namespace Layout

variable {κ ν : Type}

/-- The list at an index, if it is allocated. -/
def bucket (L : Layout κ ν) (i : ℕ) : Option (Bucket κ ν) := L.getD i none

/-- The addresses that belong to an index. -/
def owned (L : Layout κ ν) (i : ℕ) : List ℕ := (L.bucket i).elim [] Bucket.addresses

/-- The map of lists of pairs that some lists of nodes stand for. -/
def toMap (L : Layout κ ν) (size : ℕ) : HashMap κ ν := ⟨L.map (Option.map Bucket.pairs), size⟩

theorem getD_map {β : Type} (L : Layout κ ν) (f : Bucket κ ν → β) (i : ℕ) :
    (L.map (Option.map f)).getD i none = (L.bucket i).map f := by
  rw [List.getD_eq_getElem?_getD, List.getElem?_map, bucket, List.getD_eq_getElem?_getD]
  cases L[i]? with
  | none => rfl
  | some o => rfl

theorem getElem?_of_bucket {L : Layout κ ν} {i : ℕ} {b : Bucket κ ν}
    (hb : L.bucket i = some b) : L[i]? = some (some b) := by
  rw [bucket, List.getD_eq_getElem?_getD] at hb
  cases hget : L[i]? with
  | none => simp [hget] at hb
  | some o => rw [← hb, hget, Option.getD_some]

theorem lt_length_of_bucket {L : Layout κ ν} {i : ℕ} {b : Bucket κ ν}
    (hb : L.bucket i = some b) : i < L.length :=
  (List.getElem?_eq_some_iff.mp (getElem?_of_bucket hb)).1

theorem set_self {L : Layout κ ν} {i : ℕ} {b : Bucket κ ν}
    (hb : L.bucket i = some b) : L.set i (some b) = L := by
  obtain ⟨hlt, hget⟩ := List.getElem?_eq_some_iff.mp (getElem?_of_bucket hb)
  rw [← hget, List.set_getElem_self]

theorem owned_of_bucket {L : Layout κ ν} {i : ℕ} {b : Bucket κ ν} (hb : L.bucket i = some b) :
    L.owned i = b.addresses := by
  rw [owned, hb, Option.elim_some]

theorem mem_owned_iff {L : Layout κ ν} {i a : ℕ} :
    a ∈ L.owned i ↔ ∃ b, L.bucket i = some b ∧ a ∈ b.addresses := by
  unfold owned
  cases hb : L.bucket i with
  | none => simp
  | some b => simp

theorem bucket_set (L : Layout κ ν) {i : ℕ} (hi : i < L.length) (b : Bucket κ ν) (j : ℕ) :
    Layout.bucket (L.set i (some b)) j = if j = i then some b else L.bucket j := by
  rw [bucket, bucket, List.getD_eq_getElem?_getD, List.getElem?_set, List.getD_eq_getElem?_getD]
  by_cases hj : j = i
  · subst hj
    simp [hi]
  · simp [hj, Ne.symm hj]

theorem owned_set (L : Layout κ ν) {i : ℕ} (hi : i < L.length) (b : Bucket κ ν) (j : ℕ) :
    Layout.owned (L.set i (some b)) j = if j = i then b.addresses else L.owned j := by
  rw [owned, L.bucket_set hi]
  by_cases hj : j = i
  · rw [if_pos hj, if_pos hj, Option.elim_some]
  · rw [if_neg hj, if_neg hj, owned]

theorem toMap_set (L : Layout κ ν) (i : ℕ) (b : Bucket κ ν) (n k : ℕ) :
    Layout.toMap (L.set i (some b)) n = ⟨(L.toMap k).table.set i (some b.pairs), n⟩ := by
  rw [toMap, List.map_set]
  rfl

end Layout

namespace NodeMap

variable {κ ν : Type}

/-- The lists are there, they do not share a node, and there are no other nodes. -/
structure LaidOut (m : NodeMap κ ν) (L : Layout κ ν) : Prop where
  table_eq : m.table = L.map (Option.map Bucket.sentinel)
  linked : ∀ {i b}, L.bucket i = some b → Linked m.heap b.cells
  disjoint : ∀ {i j a}, a ∈ L.owned i → a ∈ L.owned j → i = j
  owned : ∀ {a}, (m.heap.read a).isSome → ∃ i, a ∈ L.owned i

variable {m m' : NodeMap κ ν} {L : Layout κ ν}

theorem LaidOut.isSome (hL : m.LaidOut L) {i a : ℕ} (ha : a ∈ L.owned i) :
    (m.heap.read a).isSome := by
  obtain ⟨b, hb, hmem⟩ := Layout.mem_owned_iff.mp ha
  exact (hL.linked hb).isSome (b.map_fst_cells ▸ hmem)

/-- One list is changed: it has nodes of its own and new ones only, and those
that it does not have any more are freed. -/
theorem LaidOut.set (hL : m.LaidOut L) {i : ℕ} (hi : i < L.length) {b : Bucket κ ν}
    (htable : m'.table = (L.set i (some b)).map (Option.map Bucket.sentinel))
    (hlinked : Linked m'.heap b.cells)
    (haddr : ∀ a ∈ b.addresses, a ∈ L.owned i ∨ m.heap.top ≤ a)
    (hframe : ∀ a, a ∉ L.owned i → a ∉ b.addresses → m'.heap.read a = m.heap.read a)
    (hgone : ∀ a ∈ L.owned i, a ∉ b.addresses → m'.heap.read a = none) :
    m'.LaidOut (L.set i (some b)) := by
  -- a list at another index has none of the changed nodes
  have hother : ∀ {j a : ℕ}, j ≠ i → a ∈ L.owned j → a ∉ L.owned i ∧ a ∉ b.addresses := by
    intro j a hj ha
    have hlt := Heap.lt_top (hL.isSome ha)
    have hnot : a ∉ L.owned i := fun hown => hj (hL.disjoint ha hown)
    refine ⟨hnot, fun hb => ?_⟩
    rcases haddr a hb with hown | htop
    · exact hnot hown
    · omega
  refine ⟨htable, ?_, ?_, ?_⟩
  · intro j c hc
    rw [L.bucket_set hi] at hc
    by_cases hj : j = i
    · rw [if_pos hj] at hc
      exact Option.some.inj hc ▸ hlinked
    · rw [if_neg hj] at hc
      refine (hL.linked hc).congr fun a ha => ?_
      rw [c.map_fst_cells, ← Layout.owned_of_bucket hc] at ha
      obtain ⟨hnot, haddr'⟩ := hother hj ha
      exact hframe a hnot haddr'
  · intro j k a hj hk
    rw [L.owned_set hi] at hj hk
    by_cases hji : j = i
    · by_cases hki : k = i
      · rw [hji, hki]
      · rw [if_pos hji] at hj
        rw [if_neg hki] at hk
        exact absurd hj (hother hki hk).2
    · rw [if_neg hji] at hj
      by_cases hki : k = i
      · rw [if_pos hki] at hk
        exact absurd hk (hother hji hj).2
      · rw [if_neg hki] at hk
        exact hL.disjoint hj hk
  · intro a ha
    by_cases hb : a ∈ b.addresses
    · exact ⟨i, by rwa [L.owned_set hi, if_pos rfl]⟩
    · have hnot : a ∉ L.owned i := by
        intro hown
        rw [hgone a hown hb] at ha
        cases ha
      rw [hframe a hnot hb] at ha
      obtain ⟨j, hj⟩ := hL.owned ha
      have hne : j ≠ i := by
        rintro rfl
        exact hnot hj
      exact ⟨j, by rwa [L.owned_set hi, if_neg hne]⟩

/-! ## The table -/

theorem LaidOut.length_table (hL : m.LaidOut L) : m.table.length = L.length := by
  rw [hL.table_eq, List.length_map]

theorem LaidOut.table_set (hL : m.LaidOut L) {i : ℕ} {b b' : Bucket κ ν} (hb : L.bucket i = some b)
    (hsentinel : b'.sentinel = b.sentinel) :
    m.table = (L.set i (some b')).map (Option.map Bucket.sentinel) := by
  have hself : (L.map (Option.map Bucket.sentinel)).set i (some b.sentinel) =
      L.map (Option.map Bucket.sentinel) := by
    conv_rhs => rw [← Layout.set_self hb]
    rw [List.map_set, Option.map_some]
  rw [hL.table_eq, List.map_set, Option.map_some, hsentinel, hself]

theorem LaidOut.getD_table (hL : m.LaidOut L) (i : ℕ) :
    m.table.getD i none = (L.bucket i).map Bucket.sentinel := by
  rw [hL.table_eq, L.getD_map]

section Keys

variable [HashKey κ]

theorem LaidOut.offset_eq (hL : m.LaidOut L) (n : ℕ) (key : κ) :
    (L.toMap n).offset key = m.offset key := by
  rw [HashMap.offset, HashMap.capacity, offset, hL.length_table, Layout.toMap, List.length_map]

theorem LaidOut.list_eq (hL : m.LaidOut L) (key : κ) :
    m.list key = (L.bucket (m.offset key)).map Bucket.sentinel := hL.getD_table _

theorem LaidOut.toMap_list (hL : m.LaidOut L) (n : ℕ) (key : κ) :
    (L.toMap n).list key = (L.bucket (m.offset key)).map Bucket.pairs := by
  rw [HashMap.list, hL.offset_eq, Layout.toMap, L.getD_map]

end Keys

/-! ## The loops -/

theorem comparator_ne_zero [HashKey κ] {l r : κ} (h : l ≠ r) : HashKey.comparator l r ≠ 0 :=
  fun h0 => h ((HashKey.comparator_eq_zero l r).mp h0)

section Loops

variable [HashKey κ] {key : κ} {nodes pre post : List (ℕ × κ × ν)} {q : ℕ × κ × ν}

/-- No node has the key, or there is a first one that has it. -/
theorem exists_split (key : κ) (nodes : List (ℕ × κ × ν)) :
    (∀ r ∈ nodes, r.2.1 ≠ key) ∨
      ∃ pre q post, nodes = pre ++ q :: post ∧ (∀ r ∈ pre, r.2.1 ≠ key) ∧ q.2.1 = key := by
  induction nodes with
  | nil => exact Or.inl (by simp)
  | cons r nodes ih =>
      by_cases hr : HashKey.comparator r.2.1 key = 0
      · exact Or.inr ⟨[], r, nodes, rfl, by simp, (HashKey.comparator_eq_zero _ _).mp hr⟩
      · have hne : r.2.1 ≠ key := fun heq => hr ((HashKey.comparator_eq_zero _ _).mpr heq)
        rcases ih with hall | ⟨pre, q, post, rfl, hpre, hq⟩
        · exact Or.inl (List.forall_mem_cons.mpr ⟨hne, hall⟩)
        · exact Or.inr ⟨r :: pre, q, post, rfl, List.forall_mem_cons.mpr ⟨hne, hpre⟩, hq⟩

theorem find_of_absent (hl : Linked m.heap (nodes.map pairCell)) {n : ℕ} (hn : nodes.length ≤ n)
    (habsent : ∀ r ∈ nodes, r.2.1 ≠ key) :
    m.find key n (first (nodes.map pairCell)) = some none := by
  induction nodes generalizing n with
  | nil =>
      cases n with
      | zero => rfl
      | succ n => rfl
  | cons r nodes ih =>
      cases n with
      | zero => exact absurd hn (by simp)
      | succ n =>
          obtain ⟨hr, hrest⟩ := List.forall_mem_cons.mp habsent
          have hcmp := comparator_ne_zero hr
          have hread : m.heap.read r.1 = some ⟨first (nodes.map pairCell), some r.2⟩ := hl.1
          have hnext := ih hl.2 (Nat.le_of_succ_le_succ hn) hrest
          simp only [List.map_cons, first_cons, pairCell, find, hread, Option.bind_eq_bind,
            Option.bind_some, hcmp, if_false]
          exact hnext

theorem find_of_split (hl : Linked m.heap ((pre ++ q :: post).map pairCell)) {n : ℕ}
    (hn : pre.length < n) (hpre : ∀ r ∈ pre, r.2.1 ≠ key) (hq : q.2.1 = key) :
    m.find key n (first ((pre ++ q :: post).map pairCell)) = some (some q) := by
  induction pre generalizing n with
  | nil =>
      cases n with
      | zero => exact absurd hn (by simp)
      | succ n =>
          have hcmp := (HashKey.comparator_eq_zero q.2.1 key).mpr hq
          have hread : m.heap.read q.1 = some ⟨first (post.map pairCell), some q.2⟩ := hl.1
          simp only [List.nil_append, List.map_cons, first_cons, pairCell, find, hread,
            Option.bind_eq_bind, Option.bind_some, hcmp, if_true]
  | cons r pre ih =>
      cases n with
      | zero => exact absurd hn (by simp)
      | succ n =>
          obtain ⟨hr, hrest⟩ := List.forall_mem_cons.mp hpre
          have hcmp := comparator_ne_zero hr
          have hread : m.heap.read r.1 =
              some ⟨first ((pre ++ q :: post).map pairCell), some r.2⟩ := hl.1
          have hnext := ih hl.2 (Nat.lt_of_succ_lt_succ hn) hrest
          simp only [List.cons_append, List.map_cons, first_cons, pairCell, find, hread,
            Option.bind_eq_bind, Option.bind_some, hcmp, if_false]
          exact hnext

/-- The loop for a key that no node has comes to the last node. -/
theorem removeLoop_of_absent (hl : Linked m.heap (nodes.map pairCell)) (hne : nodes ≠ []) {n : ℕ}
    (hn : nodes.length ≤ n) (habsent : ∀ r ∈ nodes, r.2.1 ≠ key) (previous : ℕ) :
    m.removeLoop key n previous (first (nodes.map pairCell)) = some m := by
  induction nodes generalizing n previous with
  | nil => exact absurd rfl hne
  | cons r nodes ih =>
      cases n with
      | zero => exact absurd hn (by simp)
      | succ n =>
          obtain ⟨hr, hrest⟩ := List.forall_mem_cons.mp habsent
          have hcmp := comparator_ne_zero hr
          have hread : m.heap.read r.1 = some ⟨first (nodes.map pairCell), some r.2⟩ := hl.1
          simp only [List.map_cons, first_cons, pairCell, removeLoop, hread, Option.bind_eq_bind,
            Option.bind_some, hcmp, if_false]
          cases nodes with
          | nil => rfl
          | cons r' nodes =>
              exact ih hl.2 (List.cons_ne_nil _ _) (Nat.le_of_succ_le_succ hn) hrest r.1

/-- The loop for a key takes the first node with the key out of the list, and
changes nothing but the node in front of it. -/
theorem removeLoop_of_split {l : List (ℕ × Option (κ × ν))} {p : ℕ × Option (κ × ν)}
    (hl : Linked m.heap (l ++ p :: (pre ++ q :: post).map pairCell)) {n : ℕ}
    (hn : pre.length < n) (hpre : ∀ r ∈ pre, r.2.1 ≠ key) (hq : q.2.1 = key) :
    ∃ heap, m.removeLoop key n p.1 (first ((pre ++ q :: post).map pairCell)) =
        some { m with heap := heap, size := m.size - 1 } ∧
      Linked heap (l ++ p :: (pre ++ post).map pairCell) ∧ heap.top = m.heap.top ∧
      heap.read q.1 = none ∧
      ∀ a, a ∉ p.1 :: pre.map Prod.fst → a ≠ q.1 → heap.read a = m.heap.read a := by
  induction pre generalizing l p n with
  | nil =>
      cases n with
      | zero => exact absurd hn (by simp)
      | succ n =>
          obtain ⟨h₁, h₂, hwrite, hfree, hlinked, htop, hgone, hsame⟩ := Linked.unlink hl
          have hcmp := (HashKey.comparator_eq_zero q.2.1 key).mpr hq
          have hread : m.heap.read q.1 = some ⟨first (post.map pairCell), some q.2⟩ :=
            hl.of_append.2.1
          have hbefore : m.heap.read p.1 = some ⟨some q.1, p.2⟩ := hl.of_append.1
          refine ⟨h₂, ?_, hlinked, htop, hgone, fun a ha haq => hsame a ?_ haq⟩
          · have hfree' : h₁.free q.1 = some h₂ := hfree
            simp only [List.nil_append, List.map_cons, first_cons, pairCell, removeLoop, hread,
              Option.bind_eq_bind, Option.bind_some, hcmp, if_true, hbefore, hwrite, hfree']
          · rintro rfl
            exact ha List.mem_cons_self
  | cons r pre ih =>
      cases n with
      | zero => exact absurd hn (by simp)
      | succ n =>
          obtain ⟨hr, hrest⟩ := List.forall_mem_cons.mp hpre
          have hcmp := comparator_ne_zero hr
          have hread : m.heap.read r.1 =
              some ⟨first ((pre ++ q :: post).map pairCell), some r.2⟩ := hl.of_append.2.1
          have hl' :
              Linked m.heap ((l ++ [p]) ++ pairCell r :: (pre ++ q :: post).map pairCell) := by
            rw [List.append_assoc]
            exact hl
          obtain ⟨heap, hloop, hlinked, htop, hgone, hsame⟩ :=
            ih hl' (Nat.lt_of_succ_lt_succ hn) hrest
          rw [List.append_assoc] at hlinked
          refine ⟨heap, ?_, hlinked, htop, hgone, fun a ha haq => hsame a ?_ haq⟩
          · rw [← hloop]
            simp only [List.cons_append, List.map_cons, first_cons, pairCell, removeLoop, hread,
              Option.bind_eq_bind, Option.bind_some, hcmp, if_false]
            cases pre with
            | nil => rfl
            | cons _ _ => rfl
          · exact fun hmem => ha (List.mem_cons_of_mem _ hmem)

end Loops

end NodeMap

end EceLib
