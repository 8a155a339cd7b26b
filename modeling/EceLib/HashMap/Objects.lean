import EceLib.HashMap.Work
import EceLib.HashMap.Registry

/-!
# Maps of allocated objects

The objects of a registry are allocated one by one, and the map holds pointers
to them.  Each object of the map is there under its own key, so no two keys
lead to one object, and a callback that takes an entry out and frees its object
frees every object of the map once.
-/

namespace EceLib

open Support

/-- A map of pointers, and the objects. -/
structure ObjMap (κ α : Type) where
  map : NodeMap κ ℕ
  objs : Heap α

/-- What the program does with such a map: a new object is put into it, an
object of it is changed in place, either of the two, and one is taken out and
freed. -/
inductive ObjCall (κ α : Type) where
  | add (x : α)
  | update (x : α)
  | store (x : α)
  | del (key : κ)

namespace ObjMap

variable {κ α : Type}

/-! ## The calls -/

def init (capacity : ℕ) : ObjMap κ α where
  map := NodeMap.init capacity
  objs := Heap.empty

section Calls

variable [HashKey κ]

/-- An entry is taken out and its object freed. -/
def release (st : ObjMap κ α) (key : κ) (p : ℕ) : Option (ObjMap κ α) := do
  let map ← st.map.remove key
  let objs ← st.objs.free p
  some ⟨map, objs⟩

def del (st : ObjMap κ α) (key : κ) : Option (ObjMap κ α) := do
  match ← st.map.get key with
  | none => some st
  | some p => st.release key p

variable [Keyed κ α]

/-- An object is allocated and put under its key.  An object that is there
already is not freed. -/
def add (st : ObjMap κ α) (x : α) : Option (ObjMap κ α) := do
  let (p, objs) := st.objs.alloc x
  let map ← st.map.put (Keyed.key x) p
  some ⟨map, objs⟩

/-- The object with the key of `x` becomes `x`, if there is one. -/
def update (st : ObjMap κ α) (x : α) : Option (ObjMap κ α) := do
  match ← st.map.get (Keyed.key x) with
  | none => some st
  | some p => do
      let objs ← st.objs.write p x
      some { st with objs := objs }

/-- The object with the key of `x` becomes `x`; if there is none, a new one is
put in. -/
def store (st : ObjMap κ α) (x : α) : Option (ObjMap κ α) := do
  match ← st.map.get (Keyed.key x) with
  | none => st.add x
  | some _ => st.update x

def step (st : ObjMap κ α) : ObjCall κ α → Option (ObjMap κ α)
  | .add x => st.add x
  | .update x => st.update x
  | .store x => st.store x
  | .del key => st.del key

end Calls

/-- The loop of `linked_list_free` with `hash_list_destructor`: the objects of
the nodes are freed, and every node, the sentinel first. -/
def listFree : ObjMap κ α → ℕ → ℕ → Option ℕ → Option (ObjMap κ α)
  | st, _, previous, none => do
      let heap ← st.map.heap.free previous
      some { st with map := { st.map with heap := heap } }
  | _, 0, _, some _ => none
  | st, n + 1, previous, some current => do
      let node ← st.map.heap.read current
      let pair ← node.data
      let objs ← st.objs.free pair.2
      let heap ← st.map.heap.free previous
      listFree ⟨{ st.map with heap := heap }, objs⟩ n current node.next

/-- One turn of the loop of `hash_map_free`. -/
def freeAt (st : ObjMap κ α) (i : ℕ) : Option (ObjMap κ α) :=
  match st.map.table.getD i none with
  | none => some st
  | some list => do
      let head ← st.map.listHead list
      listFree st st.map.heap.top list head

/-- `hash_map_free`. -/
def free (st : ObjMap κ α) : Option (ObjMap κ α) :=
  (List.range st.map.table.length).foldlM freeAt st

/-! ## Each object is there under its key -/

section Owns

variable [HashKey κ] [Keyed κ α]

/-- The map stands for `hm`, and its pointers lead to objects with the keys they
are found under. -/
structure Owns (st : ObjMap κ α) (hm : HashMap κ ℕ) : Prop where
  represents : st.map.Represents hm
  wellFormed : hm.WellFormed
  object : ∀ {k p}, hm.get k = some p → ∃ x, st.objs.read p = some x ∧ Keyed.key x = k

variable {st st' : ObjMap κ α} {hm : HashMap κ ℕ}

theorem Owns.get_eq (h : st.Owns hm) (key : κ) : st.map.get key = some (hm.get key) :=
  h.represents.get_eq key

theorem owns_init {capacity : ℕ} (hcapacity : 0 < capacity) :
    (init capacity : ObjMap κ α).Owns (HashMap.init capacity) where
  represents := NodeMap.represents_init capacity
  wellFormed := HashMap.wellFormed_init hcapacity
  object := fun {k p} hget => by
    rw [HashMap.get_init] at hget
    cases hget

/-- Two keys do not lead to one object. -/
theorem Owns.pointer_inj (h : st.Owns hm) {k k' : κ} {p : ℕ} (hk : hm.get k = some p)
    (hk' : hm.get k' = some p) : k = k' := by
  obtain ⟨x, hx, hkey⟩ := h.object hk
  obtain ⟨x', hx', hkey'⟩ := h.object hk'
  rw [hx, Option.some.injEq] at hx'
  rw [← hkey, ← hkey', hx']

theorem Owns.lt_top (h : st.Owns hm) {k : κ} {p : ℕ} (hk : hm.get k = some p) :
    p < st.objs.top := by
  obtain ⟨x, hx, -⟩ := h.object hk
  exact Heap.lt_top (by rw [hx]; rfl)

theorem Owns.add (h : st.Owns hm) (x : α) :
    ∃ st', st.add x = some st' ∧ st'.Owns (hm.put (Keyed.key x) st.objs.top) ∧
      st'.objs = (st.objs.alloc x).2 := by
  obtain ⟨m', hput, hrep⟩ := h.represents.put h.wellFormed (Keyed.key x) st.objs.top
  refine ⟨⟨m', (st.objs.alloc x).2⟩, ?_, ⟨hrep, h.wellFormed.put _ _, fun {k p} hget => ?_⟩, rfl⟩
  · simp only [ObjMap.add, Heap.alloc_fst, hput, Option.bind_eq_bind, Option.bind_some]
  · change ∃ y, (st.objs.alloc x).2.read p = some y ∧ Keyed.key y = k
    rw [st.objs.read_alloc]
    by_cases hk : k = Keyed.key x
    · rw [hk, h.wellFormed.get_put_self, Option.some.injEq] at hget
      exact ⟨x, by rw [if_pos hget.symm], hk.symm⟩
    · rw [h.wellFormed.get_put_of_ne _ hk] at hget
      obtain ⟨y, hy, hkey⟩ := h.object hget
      exact ⟨y, by rw [if_neg (Nat.ne_of_lt (h.lt_top hget)), hy], hkey⟩

theorem Owns.update_of_none (h : st.Owns hm) {x : α} (hget : hm.get (Keyed.key x) = none) :
    st.update x = some st := by
  rw [ObjMap.update, h.get_eq, hget]
  rfl

theorem Owns.update_of_some (h : st.Owns hm) {x : α} {p : ℕ}
    (hget : hm.get (Keyed.key x) = some p) :
    ∃ st', st.update x = some st' ∧ st'.Owns hm ∧
      ∀ q, st'.objs.read q = if q = p then some x else st.objs.read q := by
  obtain ⟨y, hy, -⟩ := h.object hget
  have hthere : (st.objs.read p).isSome := by rw [hy]; rfl
  have hread := st.objs.read_set (some x) hthere
  refine ⟨{ st with objs := st.objs.set p (some x) hthere }, ?_, ⟨h.represents, h.wellFormed,
    fun {k q} hk => ?_⟩, hread⟩
  · rw [ObjMap.update, h.get_eq, hget]
    simp only [Heap.write_of_isSome x hthere, Option.bind_eq_bind, Option.bind_some]
  · change ∃ y, (st.objs.set p (some x) hthere).read q = some y ∧ Keyed.key y = k
    rw [hread]
    by_cases hq : q = p
    · exact ⟨x, by rw [if_pos hq], h.pointer_inj hget (hq ▸ hk)⟩
    · rw [if_neg hq]
      exact h.object hk

/-- An entry is taken out: its object is gone, and the other entries and objects
stay. -/
theorem Owns.release (h : st.Owns hm) {key : κ} {p : ℕ} (hget : hm.get key = some p) :
    ∃ st' hm', st.release key p = some st' ∧ st.map.remove key = some st'.map ∧
      hm.remove key = some hm' ∧ st'.Owns hm' ∧
      ∀ q, st'.objs.read q = if q = p then none else st.objs.read q := by
  obtain ⟨y, hy, hkey⟩ := h.object hget
  have hthere : (st.objs.read p).isSome := by rw [hy]; rfl
  have hfree := Heap.free_of_isSome hthere
  have hread := Heap.read_of_free hfree
  obtain ⟨hm', hremove', hwf', hself, hother⟩ := h.wellFormed.remove_present hget
  obtain ⟨m', hremove, hrep⟩ := h.represents.remove h.wellFormed hremove'
  refine ⟨⟨m', st.objs.set p none hthere⟩, hm', ?_, hremove, hremove',
    ⟨hrep, hwf', fun {k q} hk => ?_⟩, hread⟩
  · simp only [ObjMap.release, hremove, hfree, Option.bind_eq_bind, Option.bind_some]
  · change ∃ y, (st.objs.set p none hthere).read q = some y ∧ Keyed.key y = k
    have hne : k ≠ key := by
      rintro rfl
      rw [hself] at hk
      cases hk
    rw [hother k hne] at hk
    have hq : q ≠ p := by
      rintro rfl
      exact hne (h.pointer_inj hk hget)
    rw [hread, if_neg hq]
    exact h.object hk

/-- A new object is put under a key that had none, or the one that is there is
changed. -/
theorem Owns.store_cases (h : st.Owns hm) (x : α) :
    (hm.get (Keyed.key x) = none ∧ st.store x = st.add x) ∨
      ∃ p, hm.get (Keyed.key x) = some p ∧ st.store x = st.update x := by
  rw [ObjMap.store, h.get_eq]
  cases hget : hm.get (Keyed.key x) with
  | none => exact Or.inl ⟨rfl, rfl⟩
  | some p => exact Or.inr ⟨p, rfl, rfl⟩

theorem Owns.step (h : st.Owns hm) (c : ObjCall κ α) :
    ∃ st' hm', st.step c = some st' ∧ st'.Owns hm' := by
  have hadd : ∀ x, ∃ st' hm', st.add x = some st' ∧ st'.Owns hm' := by
    intro x
    obtain ⟨st', hst', hown, -⟩ := h.add x
    exact ⟨st', _, hst', hown⟩
  have hupdate : ∀ x, ∃ st' hm', st.update x = some st' ∧ st'.Owns hm' := by
    intro x
    cases hget : hm.get (Keyed.key x) with
    | none => exact ⟨st, hm, h.update_of_none hget, h⟩
    | some p =>
        obtain ⟨st', hst', hown, -⟩ := h.update_of_some hget
        exact ⟨st', hm, hst', hown⟩
  cases c with
  | add x => exact hadd x
  | update x => exact hupdate x
  | store x =>
      rcases h.store_cases x with ⟨-, heq⟩ | ⟨p, -, heq⟩
      · rw [ObjMap.step, heq]
        exact hadd x
      · rw [ObjMap.step, heq]
        exact hupdate x
  | del key =>
      rw [ObjMap.step, del, h.get_eq]
      cases hget : hm.get key with
      | none => exact ⟨st, hm, rfl, h⟩
      | some p =>
          obtain ⟨st', hm', hst', -, -, hown, -⟩ := h.release hget
          exact ⟨st', hm', hst', hown⟩

/-- Every sequence of calls is defined. -/
theorem Owns.run (h : st.Owns hm) (cs : List (ObjCall κ α)) :
    ∃ st' hm', Support.run ObjMap.step st cs = some st' ∧ st'.Owns hm' := by
  induction cs generalizing st hm with
  | nil => exact ⟨st, hm, rfl, h⟩
  | cons c cs ih =>
      obtain ⟨st₁, hm₁, hstep, h₁⟩ := h.step c
      obtain ⟨st', hm', hrun, h'⟩ := ih h₁
      refine ⟨st', hm', ?_, h'⟩
      rw [Support.run_cons, hstep, Option.bind_some, hrun]

/-- Where an object is only put in under a key that has none, every object is in
the map. -/
structure OwnsAll (st : ObjMap κ α) (hm : HashMap κ ℕ) : Prop extends st.Owns hm where
  covered : ∀ {p}, (st.objs.read p).isSome → ∃ k, hm.get k = some p

theorem ownsAll_init {capacity : ℕ} (hcapacity : 0 < capacity) :
    (init capacity : ObjMap κ α).OwnsAll (HashMap.init capacity) where
  toOwns := owns_init hcapacity
  covered := fun {p} hp => by
    rw [init, Heap.read_empty] at hp
    cases hp

theorem OwnsAll.store (h : st.OwnsAll hm) (x : α) :
    ∃ st' hm', st.store x = some st' ∧ st'.OwnsAll hm' := by
  rcases h.store_cases x with ⟨hget, heq⟩ | ⟨p, hget, heq⟩
  · obtain ⟨st', hst', hown, hobjs⟩ := h.add x
    refine ⟨st', _, heq.trans hst', ⟨hown, fun {p} hp => ?_⟩⟩
    rw [hobjs, st.objs.read_alloc] at hp
    by_cases htop : p = st.objs.top
    · exact ⟨Keyed.key x, by rw [h.wellFormed.get_put_self, htop]⟩
    · rw [if_neg htop] at hp
      obtain ⟨k, hk⟩ := h.covered hp
      have hne : k ≠ Keyed.key x := by
        rintro rfl
        rw [hget] at hk
        cases hk
      exact ⟨k, by rw [h.wellFormed.get_put_of_ne _ hne, hk]⟩
  · obtain ⟨st', hst', hown, hread⟩ := h.update_of_some hget
    refine ⟨st', hm, heq.trans hst', ⟨hown, fun {q} hq => ?_⟩⟩
    rw [hread] at hq
    by_cases hqp : q = p
    · exact ⟨Keyed.key x, by rw [hget, hqp]⟩
    · exact h.covered (by rwa [if_neg hqp] at hq)

theorem OwnsAll.run (h : st.OwnsAll hm) (xs : List α) :
    ∃ st' hm', Support.run ObjMap.step st (xs.map ObjCall.store) = some st' ∧ st'.OwnsAll hm' := by
  induction xs generalizing st hm with
  | nil => exact ⟨st, hm, rfl, h⟩
  | cons x xs ih =>
      obtain ⟨st₁, hm₁, hstore, h₁⟩ := h.store x
      obtain ⟨st', hm', hrun, h'⟩ := ih h₁
      refine ⟨st', hm', ?_, h'⟩
      rw [List.map_cons, Support.run_cons, ObjMap.step, hstore, Option.bind_some, hrun]

end Owns

/-! ## All objects are released -/

section Released

variable [HashKey κ]

/-- Every object of the map was there and has been freed, and no other one. -/
structure Released (st st' : ObjMap κ α) : Prop where
  freed : ∀ {k p}, st.map.get k = some (some p) →
    (st.objs.read p).isSome ∧ st'.objs.read p = none
  kept : ∀ {p}, (∀ k, st.map.get k ≠ some (some p)) → st'.objs.read p = st.objs.read p

theorem free_of_release {st st' : ObjMap κ α} {key : κ} {p : ℕ}
    (h : st.release key p = some st') : st.objs.free p = some st'.objs := by
  obtain ⟨map, -, hrest⟩ := Option.bind_eq_some_iff.mp h
  obtain ⟨objs, hfree, heq⟩ := Option.bind_eq_some_iff.mp hrest
  rw [hfree, ← Option.some.inj heq]

/-- What is freed by calls that free the objects they are called for. -/
theorem read_of_visits {σ : Type} {objs : σ → Heap α} {map : σ → NodeMap κ ℕ}
    {loop : σ → κ → ℕ → Option σ}
    (hfrees : ∀ s k p s', loop s k p = some s' → (objs s).free p = some (objs s'))
    {es : List (κ × ℕ)} {s s' : σ} (h : NodeMap.Visits map loop es s s') (q : ℕ) :
    (objs s').read q = if q ∈ es.map Prod.snd then none else (objs s).read q := by
  induction h with
  | nil => simp
  | @cons s s₁ s' k p es _ call _ ih =>
      have hfree := Heap.read_of_free (hfrees _ _ _ _ call)
      rw [ih, hfree, List.map_cons]
      by_cases hq : q = p
      · simp [hq]
      · by_cases hmem : q ∈ es.map Prod.snd
        · rw [if_pos hmem, if_pos (List.mem_cons_of_mem _ hmem)]
        · rw [if_neg hmem, if_neg hq, if_neg (by simp [hq, hmem])]

/-- Calls for all entries of a map release all of its objects. -/
theorem Owns.released [Keyed κ α] {st st' : ObjMap κ α} {hm : HashMap κ ℕ} (h : st.Owns hm)
    (hread : ∀ q, st'.objs.read q =
      if q ∈ hm.entries.map Prod.snd then none else st.objs.read q) : Released st st' := by
  have hmem : ∀ q, q ∈ hm.entries.map Prod.snd ↔ ∃ k, hm.get k = some q := by
    intro q
    rw [List.mem_map]
    constructor
    · rintro ⟨⟨k, p⟩, hp, rfl⟩
      exact ⟨k, h.wellFormed.get_eq_some_iff.mpr hp⟩
    · rintro ⟨k, hk⟩
      exact ⟨(k, q), h.wellFormed.get_eq_some_iff.mp hk, rfl⟩
  constructor
  · intro k p hget
    rw [h.get_eq, Option.some.injEq] at hget
    obtain ⟨x, hx, -⟩ := h.object hget
    exact ⟨by rw [hx]; rfl, by rw [hread, if_pos ((hmem p).mpr ⟨k, hget⟩)]⟩
  · intro p hnot
    rw [hread, if_neg]
    rintro hp
    obtain ⟨k, hk⟩ := (hmem p).mp hp
    exact hnot k (by rw [h.get_eq, hk])

theorem OwnsAll.read_of_released [Keyed κ α] {st st' : ObjMap κ α} {hm : HashMap κ ℕ}
    (h : st.OwnsAll hm) (hreleased : Released st st') (p : ℕ) : st'.objs.read p = none := by
  by_cases hget : ∃ k, hm.get k = some p
  · obtain ⟨k, hk⟩ := hget
    exact (hreleased.freed (by rw [h.get_eq, hk])).2
  · rw [hreleased.kept fun k hk => hget ⟨k, by rwa [h.get_eq, Option.some.injEq] at hk⟩]
    rw [← Option.not_isSome_iff_eq_none]
    exact fun hp => hget (h.covered hp)

/-! ## A walk that releases the objects -/

section Walk

variable [Keyed κ α] {σ : Type} (objMap : σ → ObjMap κ α) (loop : σ → κ → ℕ → Option σ)

/-- The callback takes out the entry it is called for and frees its object. -/
structure ReleasesVisited : Prop where
  call : ∀ {s hm k p}, (objMap s).Owns hm → hm.get k = some p →
    ∃ s', loop s k p = some s' ∧ (objMap s).release k p = some (objMap s')
  frees : ∀ s k p s', loop s k p = some s' → (objMap s).objs.free p = some (objMap s').objs

variable {objMap loop}

theorem ReleasesVisited.removes (hloop : ReleasesVisited objMap loop) :
    NodeMap.RemovesVisited (fun s => (objMap s).map) loop fun s => ∃ hm, (objMap s).Owns hm := by
  rintro s k p ⟨hm, h⟩ hget
  rw [h.get_eq, Option.some.injEq] at hget
  obtain ⟨s', hcall, hrelease⟩ := hloop.call h hget
  obtain ⟨st', hm', hrelease', hremove, -, h', -⟩ := h.release hget
  obtain rfl : st' = objMap s' := Option.some.inj (hrelease'.symm.trans hrelease)
  exact ⟨s', hcall, hremove, hm', h'⟩

theorem Owns.walk (hloop : ReleasesVisited objMap loop) {s : σ} {hm : HashMap κ ℕ}
    (h : (objMap s).Owns hm) :
    ∃ s' L, NodeMap.VisitsOnce (fun s => (objMap s).map) loop s s' ∧
      NodeMap.Visits (fun s => (objMap s).map) loop hm.entries s s' ∧
      Released (objMap s) (objMap s') ∧ (objMap s').map.LaidOut L ∧
      ∀ j b, L.bucket j = some b → b.nodes = [] := by
  obtain ⟨s', L, honce, -, hvisits, hL, hempty⟩ :=
    NodeMap.visitsOnce_of_removes hloop.removes ⟨hm, h⟩ h.represents h.wellFormed
  exact ⟨s', L, honce, hvisits, h.released (read_of_visits hloop.frees hvisits), hL, hempty⟩

end Walk

end Released

/-! ## `hash_map_free` on a map that has been emptied -/

theorem listFree_of_empty {st : ObjMap κ α} {list : ℕ} (hthere : (st.map.heap.read list).isSome)
    (n : ℕ) :
    ∃ st', listFree st n list none = some st' ∧ st'.objs = st.objs ∧
      st'.map.table = st.map.table ∧
      ∀ a, st'.map.heap.read a = if a = list then none else st.map.heap.read a := by
  have hfree := Heap.free_of_isSome hthere
  refine ⟨{ st with map := { st.map with heap := st.map.heap.set list none hthere } }, ?_, rfl, rfl,
    Heap.read_of_free hfree⟩
  cases n with
  | zero => simp only [listFree, hfree, Option.bind_eq_bind, Option.bind_some]
  | succ n => simp only [listFree, hfree, Option.bind_eq_bind, Option.bind_some]

/-- One turn of the loop: the sentinel of the list is freed, if there is a list. -/
theorem freeAt_of_empty {L : Layout κ ℕ} {st : ObjMap κ α} {i : ℕ}
    (htable : st.map.table = L.map (Option.map Bucket.sentinel))
    (hempty : ∀ b, L.bucket i = some b → b.nodes = [])
    (hthere : ∀ b, L.bucket i = some b → st.map.heap.read b.sentinel = some ⟨none, none⟩) :
    ∃ st', freeAt st i = some st' ∧ st'.objs = st.objs ∧ st'.map.table = st.map.table ∧
      ∀ a, st'.map.heap.read a = if a ∈ L.owned i then none else st.map.heap.read a := by
  have hentry : st.map.table.getD i none = (L.bucket i).map Bucket.sentinel := by
    rw [htable, L.getD_map]
  cases hb : L.bucket i with
  | none =>
      refine ⟨st, ?_, rfl, rfl, fun a => ?_⟩
      · rw [freeAt, hentry, hb, Option.map_none]
      · rw [Layout.owned, hb, Option.elim_none, if_neg List.not_mem_nil]
  | some b =>
      have hcell := hthere b hb
      obtain ⟨st', hlist, hobjs, htable', hread⟩ :=
        listFree_of_empty (by rw [hcell]; rfl : (st.map.heap.read b.sentinel).isSome)
          st.map.heap.top
      refine ⟨st', ?_, hobjs, htable', fun a => ?_⟩
      · rw [freeAt, hentry, hb, Option.map_some]
        simp only [NodeMap.listHead, hcell, Option.map_some, Option.bind_eq_bind, Option.bind_some]
        exact hlist
      · rw [hread, Layout.owned_of_bucket hb, Bucket.addresses, hempty b hb, List.map_nil]
        exact if_congr List.mem_singleton.symm rfl rfl

theorem foldlM_freeAt {L : Layout κ ℕ} {st : ObjMap κ α}
    (htable : st.map.table = L.map (Option.map Bucket.sentinel))
    (hdisjoint : ∀ {i j a}, a ∈ L.owned i → a ∈ L.owned j → i = j)
    (hempty : ∀ i b, L.bucket i = some b → b.nodes = []) {js : List ℕ} (hjs : js.Nodup)
    (hthere : ∀ j ∈ js, ∀ b, L.bucket j = some b →
      st.map.heap.read b.sentinel = some ⟨none, none⟩) :
    ∃ st', js.foldlM freeAt st = some st' ∧ st'.objs = st.objs ∧
      ∀ a, st'.map.heap.read a =
        if a ∈ js.flatMap L.owned then none else st.map.heap.read a := by
  induction js generalizing st with
  | nil => exact ⟨st, rfl, rfl, fun a => by simp⟩
  | cons i js ih =>
      obtain ⟨hi, hrest⟩ := List.nodup_cons.mp hjs
      obtain ⟨st₁, hturn, hobjs₁, htable₁, hread₁⟩ :=
        freeAt_of_empty htable (hempty i) (hthere i List.mem_cons_self)
      -- the sentinels of the other lists are still there
      have hthere₁ : ∀ j ∈ js, ∀ b, L.bucket j = some b →
          st₁.map.heap.read b.sentinel = some ⟨none, none⟩ := by
        intro j hj b hb
        have hown : b.sentinel ∈ L.owned j := by
          rw [Layout.owned_of_bucket hb]
          exact List.mem_cons_self
        have hnot : b.sentinel ∉ L.owned i := fun hmem => hi (hdisjoint hown hmem ▸ hj)
        rw [hread₁, if_neg hnot]
        exact hthere j (List.mem_cons_of_mem _ hj) b hb
      obtain ⟨st', hturns, hobjs, hread⟩ := ih (htable₁.trans htable) hrest hthere₁
      refine ⟨st', ?_, hobjs.trans hobjs₁, fun a => ?_⟩
      · rw [List.foldlM_cons, hturn]
        exact hturns
      · rw [hread, hread₁, List.flatMap_cons]
        by_cases ha : a ∈ js.flatMap L.owned
        · rw [if_pos ha, if_pos (List.mem_append_right _ ha)]
        · rw [if_neg ha]
          refine if_congr ?_ rfl rfl
          rw [List.mem_append]
          exact (or_iff_left ha).symm

/-- All that is left of a map without entries are the sentinels, which
`hash_map_free` frees. -/
theorem free_of_empty {L : Layout κ ℕ} {st : ObjMap κ α} (hL : st.map.LaidOut L)
    (hempty : ∀ i b, L.bucket i = some b → b.nodes = []) :
    ∃ st', st.free = some st' ∧ st'.objs = st.objs ∧ ∀ a, st'.map.heap.read a = none := by
  obtain ⟨st', hturns, hobjs, hread⟩ :=
    foldlM_freeAt hL.table_eq hL.disjoint hempty (List.nodup_range (n := L.length))
      fun j _ b hb => by
        have hlinked := (hL.linked hb).1
        rw [hempty j b hb] at hlinked
        exact hlinked
  refine ⟨st', ?_, hobjs, fun a => ?_⟩
  · rw [free, hL.length_table]
    exact hturns
  · rw [hread]
    split
    · rfl
    · rename_i hnot
      rw [← Option.not_isSome_iff_eq_none]
      intro ha
      obtain ⟨i, hi⟩ := hL.owned ha
      obtain ⟨b, hb, -⟩ := Layout.mem_owned_iff.mp hi
      exact hnot (List.mem_flatMap.mpr
        ⟨i, List.mem_range.mpr (Layout.lt_length_of_bucket hb), hi⟩)

end ObjMap

end EceLib
