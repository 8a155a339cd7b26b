import EceLib.HashMap.NodeRefinement

/-!
# Walks over a hash map

The model of `hash_map_work` on the nodes, with a callback that may change the
map it is called for.  A callback that takes out the entry it is called for is
called once for each of the entries, and the nodes that the walk still has to
visit stay where they are.
-/

namespace EceLib

open Support

/-! ## Lists without nodes -/

/-- A list after all of its nodes have been taken out. -/
def Bucket.emptied {κ ν : Type} (b : Bucket κ ν) : Bucket κ ν := ⟨b.sentinel, []⟩

namespace Layout

variable {κ ν : Type} {L : Layout κ ν} {i : ℕ} {b : Bucket κ ν}

/-- The pairs at an index. -/
def pairsAt (L : Layout κ ν) (i : ℕ) : List (κ × ν) := (L.bucket i).elim [] Bucket.pairs

theorem entries_toMap (L : Layout κ ν) (n : ℕ) :
    (L.toMap n).entries = (List.range L.length).flatMap L.pairsAt := by
  have hrange : (List.range L.length).map L.bucket = L := by
    apply List.ext_getElem?
    intro j
    rw [List.getElem?_map]
    by_cases hj : j < L.length
    · rw [List.getElem?_range hj, Option.map_some, bucket, List.getD_eq_getElem?_getD,
        List.getElem?_eq_getElem hj, Option.getD_some]
    · rw [List.getElem?_eq_none (by simpa using hj), List.getElem?_eq_none (by simpa using hj)]
      rfl
  calc
    (L.toMap n).entries = L.flatMap fun o => (o.map Bucket.pairs).getD [] := by
      rw [HashMap.entries, toMap, List.flatMap_map]
    _ = ((List.range L.length).map L.bucket).flatMap fun o => (o.map Bucket.pairs).getD [] := by
      rw [hrange]
    _ = (List.range L.length).flatMap L.pairsAt := by
      rw [List.flatMap_map]
      congr 1
      funext i
      rw [pairsAt]
      cases L.bucket i with
      | none => rfl
      | some b => rfl

theorem entries_eq_nil (hempty : ∀ j b, L.bucket j = some b → b.nodes = []) (n : ℕ) :
    (L.toMap n).entries = [] := by
  rw [L.entries_toMap, List.flatMap_eq_nil_iff]
  intro j _
  rw [pairsAt]
  cases hb : L.bucket j with
  | none => rfl
  | some b => rw [Option.elim_some, Bucket.pairs, hempty j b hb, List.map_nil]

theorem getElem?_toMap (hb : L.bucket i = some b) (n : ℕ) :
    (L.toMap n).table[i]? = some (some b.pairs) := by
  rw [toMap, List.getElem?_map, getElem?_of_bucket hb]
  rfl

end Layout

namespace NodeMap

variable {κ ν σ : Type}

/-! ## The walk -/

/-- The loop over a list.  The next node is read before the callback is called. -/
def walk (map : σ → NodeMap κ ν) (loop : σ → κ → ν → Option σ) : ℕ → Option ℕ → σ → Option σ
  | _, none, s => some s
  | 0, some _, _ => none
  | n + 1, some head, s => do
      let node ← (map s).heap.read head
      let pair ← node.data
      let s ← loop s pair.1 pair.2
      walk map loop n node.next s

/-- One turn of the loop over the table. -/
def walkAt (map : σ → NodeMap κ ν) (loop : σ → κ → ν → Option σ) (s : σ) (l : ℕ) : Option σ :=
  match (map s).table.getD l none with
  | none => some s
  | some list => do
      let head ← (map s).listHead list
      walk map loop (map s).heap.top head s

/-- `hash_map_work`, in a memory `s` where `map s` is the map. -/
def work (map : σ → NodeMap κ ν) (loop : σ → κ → ν → Option σ) (s : σ) : Option σ :=
  (List.range (map s).table.length).foldlM (walkAt map loop) s

/-- The callback, with a record of its calls. -/
def logged (loop : σ → κ → ν → Option σ) (t : σ × List (κ × ν)) (k : κ) (v : ν) :
    Option (σ × List (κ × ν)) :=
  (loop t.1 k v).map fun s => (s, t.2 ++ [(k, v)])

section Visits

variable [HashKey κ] {map : σ → NodeMap κ ν} {loop : σ → κ → ν → Option σ} {I : σ → Prop}

variable (map loop) in
/-- The callback is called for these entries in turn, each time for one that is
in the map. -/
inductive Visits : List (κ × ν) → σ → σ → Prop where
  | nil (s : σ) : Visits [] s s
  | cons {s s₁ s' : σ} {k : κ} {v : ν} {es : List (κ × ν)}
      (present : (map s).get k = some (some v)) (call : loop s k v = some s₁)
      (rest : Visits es s₁ s') : Visits ((k, v) :: es) s s'

theorem Visits.append {es fs : List (κ × ν)} {s s₁ s' : σ} (h : Visits map loop es s s₁)
    (h' : Visits map loop fs s₁ s') : Visits map loop (es ++ fs) s s' := by
  induction h with
  | nil => exact h'
  | cons present call _ ih => exact Visits.cons present call (ih h')

variable (map loop I) in
/-- In the states that meet `I` the callback takes the entry it is called for
out of the map, and leaves a state that meets `I`. -/
def RemovesVisited : Prop :=
  ∀ s k v, I s → (map s).get k = some (some v) →
    ∃ s', loop s k v = some s' ∧ (map s).remove k = some (map s') ∧ I s'

theorem RemovesVisited.logged (h : RemovesVisited map loop I) :
    RemovesVisited (fun t : σ × List (κ × ν) => map t.1) (logged loop) fun t => I t.1 := by
  intro t k v hI hget
  obtain ⟨s', hcall, hremove, hI'⟩ := h t.1 k v hI hget
  exact ⟨(s', t.2 ++ [(k, v)]), by rw [NodeMap.logged, hcall, Option.map_some], hremove, hI'⟩

/-- What is recorded are the calls. -/
theorem Visits.of_logged {es : List (κ × ν)} {t t' : σ × List (κ × ν)}
    (h : Visits (fun t : σ × List (κ × ν) => map t.1) (NodeMap.logged loop) es t t') :
    Visits map loop es t.1 t'.1 ∧ t'.2 = t.2 ++ es := by
  induction h with
  | nil t => exact ⟨Visits.nil t.1, (List.append_nil _).symm⟩
  | cons present call _ ih =>
      obtain ⟨s₁, hloop, rfl⟩ := Option.map_eq_some_iff.mp call
      refine ⟨Visits.cons present hloop ih.1, ?_⟩
      rw [ih.2, List.append_assoc]
      rfl

theorem Visits.eq {es : List (κ × ν)} {s s' s'' : σ} (h : Visits map loop es s s')
    (h' : Visits map loop es s s'') : s' = s'' := by
  induction h with
  | nil =>
      cases h' with
      | nil => rfl
  | cons _ call _ ih =>
      cases h' with
      | cons _ call' rest' =>
          obtain rfl := Option.some.inj (call.symm.trans call')
          exact ih rest'

/-! ## One list -/

/-- An entry of a list is what is found under its key, and its key belongs to
the list. -/
theorem LaidOut.get_of_mem {m : NodeMap κ ν} {L : Layout κ ν} (hL : m.LaidOut L)
    (hwf : (L.toMap m.size).WellFormed) {i : ℕ} {b : Bucket κ ν} (hb : L.bucket i = some b)
    {k : κ} {v : ν} (hp : (k, v) ∈ b.pairs) :
    m.get k = some (some v) ∧ m.offset k = i := by
  have htable := Layout.getElem?_toMap hb m.size
  have hmem : (k, v) ∈ (L.toMap m.size).entries :=
    List.mem_flatMap.mpr ⟨some b.pairs, List.mem_of_getElem? htable, hp⟩
  refine ⟨?_, ?_⟩
  · rw [hL.get_eq, hwf.get_eq_some_iff.mpr hmem]
  · rw [← hL.offset_eq m.size]
    exact hwf.placed i b.pairs htable (k, v) hp

/-- The walk over a list calls the callback for each of its pairs, and leaves
the list empty and the other ones unchanged. -/
theorem walk_removes (hloop : RemovesVisited map loop I) {i sentinel : ℕ}
    {nodes : List (ℕ × κ × ν)} {L : Layout κ ν} (hb : L.bucket i = some ⟨sentinel, nodes⟩) {s : σ}
    (hI : I s) (hL : (map s).LaidOut L) (hwf : (L.toMap (map s).size).WellFormed) {n : ℕ}
    (hn : nodes.length ≤ n) :
    ∃ s', walk map loop n (first (nodes.map pairCell)) s = some s' ∧
      Visits map loop (nodes.map Prod.snd) s s' ∧ I s' ∧
      (map s').LaidOut (L.set i (some ⟨sentinel, []⟩)) ∧
      (Layout.toMap (L.set i (some ⟨sentinel, []⟩)) (map s').size).WellFormed := by
  induction nodes generalizing L s n with
  | nil =>
      refine ⟨s, ?_, Visits.nil s, hI, ?_, ?_⟩
      · cases n with
        | zero => rfl
        | succ n => rfl
      · rwa [Layout.set_self hb]
      · rwa [Layout.set_self hb]
  | cons q rest ih =>
      obtain ⟨a, k, v⟩ := q
      cases n with
      | zero => exact absurd hn (by simp)
      | succ n =>
          have hi := Layout.lt_length_of_bucket hb
          obtain ⟨present, hoffset⟩ := hL.get_of_mem hwf hb List.mem_cons_self
          have hread : (map s).heap.read a = some ⟨first (rest.map pairCell), some (k, v)⟩ :=
            (hL.linked hb).2.1
          obtain ⟨s₁, hcall, hremove, hI₁⟩ := hloop s k v hI present
          -- the entry is the first of its list, so the saved successor comes first afterwards
          have hfirst : ∀ r ∈ ([] : List (ℕ × κ × ν)), r.2.1 ≠ k := by simp
          have hi' : (map s).offset k < L.length := hoffset.symm ▸ hi
          have hb' : L.bucket ((map s).offset k) = some ⟨sentinel, (a, k, v) :: rest⟩ :=
            hoffset.symm ▸ hb
          obtain ⟨m', hm', hL', heq⟩ :=
            hL.remove_of_split hi' hb' (List.nil_append _).symm hfirst rfl
          obtain rfl : m' = map s₁ := Option.some.inj (hm'.symm.trans hremove)
          have hwf' := hwf.wellFormed_remove heq
          rw [List.nil_append, hoffset] at hL' hwf'
          have hrest : Layout.bucket (L.set i (some ⟨sentinel, rest⟩)) i =
              some ⟨sentinel, rest⟩ := by
            rw [L.bucket_set hi, if_pos rfl]
          obtain ⟨s', hwalk, hvisits, hI', hL'', hwf''⟩ :=
            ih hrest hI₁ hL' hwf' (Nat.le_of_succ_le_succ hn)
          rw [List.set_set] at hL'' hwf''
          refine ⟨s', ?_, Visits.cons present hcall hvisits, hI', hL'', hwf''⟩
          simp only [List.map_cons, first_cons, pairCell, walk, hread, Option.bind_eq_bind,
            Option.bind_some, hcall]
          exact hwalk

/-! ## All lists -/

/-- One turn over the table. -/
theorem walkAt_removes (hloop : RemovesVisited map loop I) {L : Layout κ ν} {s : σ} (hI : I s)
    (hL : (map s).LaidOut L) (hwf : (L.toMap (map s).size).WellFormed) (i : ℕ) :
    ∃ s' L', walkAt map loop s i = some s' ∧ Visits map loop (L.pairsAt i) s s' ∧ I s' ∧
      (map s').LaidOut L' ∧ (L'.toMap (map s').size).WellFormed ∧ L'.length = L.length ∧
      ∀ j, L'.bucket j = if j = i then (L.bucket j).map Bucket.emptied else L.bucket j := by
  rw [walkAt, hL.getD_table, Layout.pairsAt]
  cases hb : L.bucket i with
  | none =>
      refine ⟨s, L, rfl, Visits.nil s, hI, hL, hwf, rfl, fun j => ?_⟩
      split
      · rename_i hj
        rw [hj, hb, Option.map_none]
      · rfl
  | some b =>
      obtain ⟨s', hwalk, hvisits, hI', hL', hwf'⟩ :=
        walk_removes hloop hb hI hL hwf (Nat.le_of_lt (hL.length_lt hb))
      refine ⟨s', _, ?_, hvisits, hI', hL', hwf', List.length_set, fun j => ?_⟩
      · simp only [Option.map_some, hL.listHead_eq hb, Option.bind_eq_bind, Option.bind_some]
        exact hwalk
      · rw [L.bucket_set (Layout.lt_length_of_bucket hb)]
        split
        · rename_i hj
          rw [hj, hb, Option.map_some, Bucket.emptied]
        · rfl

/-- Some turns, each over another list. -/
theorem foldlM_removes (hloop : RemovesVisited map loop I) {js : List ℕ} (hjs : js.Nodup)
    {L : Layout κ ν} {s : σ} (hI : I s) (hL : (map s).LaidOut L)
    (hwf : (L.toMap (map s).size).WellFormed) :
    ∃ s' L', js.foldlM (walkAt map loop) s = some s' ∧
      Visits map loop (js.flatMap L.pairsAt) s s' ∧ I s' ∧ (map s').LaidOut L' ∧
      (L'.toMap (map s').size).WellFormed ∧ L'.length = L.length ∧
      ∀ j, L'.bucket j = if j ∈ js then (L.bucket j).map Bucket.emptied else L.bucket j := by
  induction js generalizing L s with
  | nil => exact ⟨s, L, rfl, Visits.nil s, hI, hL, hwf, rfl, fun j => by simp⟩
  | cons i js ih =>
      obtain ⟨hi, hrest⟩ := List.nodup_cons.mp hjs
      obtain ⟨s₁, L₁, hturn, hvisits, hI₁, hL₁, hwf₁, hlen₁, hbucket₁⟩ :=
        walkAt_removes hloop hI hL hwf i
      obtain ⟨s', L', hturns, hvisits', hI', hL', hwf', hlen', hbucket'⟩ := ih hrest hI₁ hL₁ hwf₁
      have hne : ∀ j ∈ js, j ≠ i := by
        rintro j hj rfl
        exact hi hj
      have hother : ∀ j ∈ js, L₁.bucket j = L.bucket j := by
        intro j hj
        rw [hbucket₁, if_neg (hne j hj)]
      have hpairs : js.flatMap L₁.pairsAt = js.flatMap L.pairsAt :=
        List.flatMap_congr fun j hj => by rw [Layout.pairsAt, hother j hj, Layout.pairsAt]
      refine ⟨s', L', ?_, ?_, hI', hL', hwf', hlen'.trans hlen₁, fun j => ?_⟩
      · rw [List.foldlM_cons, hturn]
        exact hturns
      · rw [List.flatMap_cons, ← hpairs]
        exact hvisits.append hvisits'
      · rw [hbucket', hbucket₁]
        by_cases hj : j ∈ js
        · rw [if_pos hj, if_pos (List.mem_cons_of_mem _ hj), if_neg (hne j hj)]
        · rw [if_neg hj]
          refine if_congr ?_ rfl rfl
          rw [List.mem_cons]
          exact (or_iff_left hj).symm

/-- The walk over a map whose callback takes out the entries: it ends, has made
a call for each entry there was, and has left lists without nodes. -/
theorem work_removes (hloop : RemovesVisited map loop I) {hm : HashMap κ ν} {s : σ} (hI : I s)
    (hrep : (map s).Represents hm) (hwf : hm.WellFormed) :
    ∃ s' L', work map loop s = some s' ∧ Visits map loop hm.entries s s' ∧ I s' ∧
      (map s').LaidOut L' ∧ (L'.toMap (map s').size).WellFormed ∧
      ∀ j b, L'.bucket j = some b → b.nodes = [] := by
  obtain ⟨L, hL, rfl⟩ := hrep
  obtain ⟨s', L', hturns, hvisits, hI', hL', hwf', hlen, hbucket⟩ :=
    foldlM_removes hloop (List.nodup_range (n := L.length)) hI hL hwf
  refine ⟨s', L', ?_, ?_, hI', hL', hwf', fun j b hb => ?_⟩
  · rw [work, hL.length_table]
    exact hturns
  · rw [L.entries_toMap]
    exact hvisits
  · have hj := Layout.lt_length_of_bucket hb
    rw [hlen, ← List.mem_range] at hj
    rw [hbucket, if_pos hj] at hb
    obtain ⟨b₀, -, rfl⟩ := Option.map_eq_some_iff.mp hb
    rfl

variable (map loop) in
/-- The walk from `s` ends in `s'`.  Its calls are one for each entry of the map,
each for an entry that is still in it, and the map is empty in the end. -/
structure VisitsOnce (s s' : σ) : Prop where
  ends : work map loop s = some s'
  once : ∃ es : List (κ × ν),
    work (fun t : σ × List (κ × ν) => map t.1) (logged loop) (s, []) = some (s', es) ∧
      (es.map Prod.fst).Nodup ∧ (∀ k v, (k, v) ∈ es ↔ (map s).get k = some (some v)) ∧
      Visits map loop es s s'
  empty : ∀ k, (map s').get k = some none
  size_eq : (map s').size = 0

theorem visitsOnce_of_removes (hloop : RemovesVisited map loop I) {hm : HashMap κ ν} {s : σ}
    (hI : I s) (hrep : (map s).Represents hm) (hwf : hm.WellFormed) :
    ∃ s' L', VisitsOnce map loop s s' ∧ I s' ∧ Visits map loop hm.entries s s' ∧
      (map s').LaidOut L' ∧ ∀ j b, L'.bucket j = some b → b.nodes = [] := by
  obtain ⟨s', L', hwork, hvisits, hI', hL', hwf', hempty⟩ := work_removes hloop hI hrep hwf
  -- the same walk with a record of the calls
  obtain ⟨⟨s'', es⟩, -, hlog, hvisitsLog, -⟩ :=
    @work_removes κ ν (σ × List (κ × ν)) _ (fun t => map t.1) (NodeMap.logged loop) (fun t => I t.1)
      hloop.logged hm (s, []) hI hrep hwf
  obtain ⟨hvisits'', hes⟩ := hvisitsLog.of_logged
  obtain rfl : s' = s'' := hvisits.eq hvisits''
  obtain rfl : es = hm.entries := hes
  have hentries := Layout.entries_eq_nil hempty (map s').size
  obtain ⟨L, hL, rfl⟩ := hrep
  refine ⟨s', L', ⟨hwork, ⟨_, hlog, hwf.entries_nodup, fun k v => ?_, hvisits⟩, fun k => ?_, ?_⟩,
    hI', hvisits, hL', hempty⟩
  · rw [hL.get_eq, Option.some.injEq, hwf.get_eq_some_iff]
  · rw [hL'.get_eq, Option.some.injEq, Option.eq_none_iff_forall_ne_some]
    intro v hv
    rw [hwf'.get_eq_some_iff, hentries] at hv
    cases hv
  · have hsize := hwf'.size_eq
    rw [hentries] at hsize
    exact hsize

/-- On the map that some calls have left, the walk goes through. -/
theorem visitsOnce_of_run (hloop : RemovesVisited map loop I) {capacity : ℕ}
    (hcapacity : 0 < capacity) {cs : List (MapCall κ ν)} {s : σ}
    (hrun : Support.run NodeMap.step (NodeMap.init capacity) cs = some (map s)) (hI : I s) :
    ∃ s', VisitsOnce map loop s s' := by
  obtain ⟨hm, -, hrep, hwf⟩ :=
    (represents_init capacity).run (HashMap.wellFormed_init hcapacity) hrun
  obtain ⟨s', L, honce, -⟩ := visitsOnce_of_removes hloop hI hrep hwf
  exact ⟨s', honce⟩

/-- The callback that takes the entry out and does nothing else. -/
theorem removesVisited_remove :
    RemovesVisited id (fun (m : NodeMap κ ν) k _ => m.remove k)
      fun m => ∃ hm, m.Represents hm ∧ hm.WellFormed := by
  rintro m k v ⟨hm, hrep, hwf⟩ hget
  rw [id, hrep.get_eq, Option.some.injEq] at hget
  obtain ⟨hm', hremove', hwf', -⟩ := hwf.remove_present hget
  obtain ⟨m', hremove, hrep'⟩ := hrep.remove hwf hremove'
  exact ⟨m', hremove, hremove, hm', hrep', hwf'⟩

end Visits

end NodeMap

end EceLib
