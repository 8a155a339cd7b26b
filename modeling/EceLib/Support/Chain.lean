import EceLib.Support.Heap
import Mathlib.Data.List.Nodup
import Mathlib.Data.List.Perm.Subperm

/-!
# Singly linked lists in a heap

A list is a row of cells, given by their addresses and what they hold; each cell
has the address of the next one, and the last has none.  The operations on a
list change one of its cells, and say what is not touched, so that other lists
in the heap stay what they are.
-/

namespace EceLib.Support

structure Node (β : Type) where
  next : Option ℕ
  data : β

variable {β : Type}

/-- The pointer to a list of cells. -/
def first (l : List (ℕ × β)) : Option ℕ := l.head?.map Prod.fst

@[simp] theorem first_nil : first ([] : List (ℕ × β)) = none := rfl

@[simp] theorem first_cons (q : ℕ × β) (l : List (ℕ × β)) : first (q :: l) = some q.1 := rfl

/-- The cells are there and linked in this order. -/
def Linked (h : Heap (Node β)) : List (ℕ × β) → Prop
  | [] => True
  | q :: l => h.read q.1 = some ⟨first l, q.2⟩ ∧ Linked h l

variable {h h' : Heap (Node β)} {l l₁ l₂ l₂' : List (ℕ × β)}

theorem Linked.of_append (hl : Linked h (l₁ ++ l₂)) : Linked h l₂ := by
  induction l₁ with
  | nil => exact hl
  | cons q l₁ ih => exact ih hl.2

theorem Linked.isSome (hl : Linked h l) {a : ℕ} (ha : a ∈ l.map Prod.fst) :
    (h.read a).isSome := by
  induction l with
  | nil => cases ha
  | cons q l ih =>
      rcases List.mem_cons.mp ha with rfl | hrest
      · rw [hl.1]
        rfl
      · exact ih hl.2 hrest

theorem Linked.congr (hl : Linked h l)
    (hsame : ∀ a ∈ l.map Prod.fst, h'.read a = h.read a) : Linked h' l := by
  induction l with
  | nil => trivial
  | cons q l ih =>
      refine ⟨(hsame q.1 List.mem_cons_self).trans hl.1, ih hl.2 fun a ha => ?_⟩
      exact hsame a (List.mem_cons_of_mem _ ha)

/-- Other cells may follow some that stay, if the first of them has the same
address. -/
theorem Linked.replace_tail (hl : Linked h (l₁ ++ l₂)) (htail : Linked h' l₂')
    (hfirst : first l₂' = first l₂)
    (hsame : ∀ a ∈ l₁.map Prod.fst, h'.read a = h.read a) : Linked h' (l₁ ++ l₂') := by
  induction l₁ with
  | nil => exact htail
  | cons q l₁ ih =>
      have hnext : first (l₁ ++ l₂') = first (l₁ ++ l₂) := by
        cases l₁ with
        | nil => exact hfirst
        | cons _ _ => rfl
      refine ⟨?_, ih hl.2 fun a ha => hsame a (List.mem_cons_of_mem _ ha)⟩
      change h'.read q.1 = some ⟨first (l₁ ++ l₂'), q.2⟩
      rw [hsame q.1 List.mem_cons_self, hnext]
      exact hl.1

/-- What can be reached from an address is one list. -/
theorem Linked.eq_of_first (hl : Linked h l₁) (hl' : Linked h l₂)
    (hfirst : first l₁ = first l₂) : l₁ = l₂ := by
  induction l₁ generalizing l₂ with
  | nil =>
      cases l₂ with
      | nil => rfl
      | cons _ _ => cases hfirst
  | cons q l₁ ih =>
      cases l₂ with
      | nil => cases hfirst
      | cons q' l₂ =>
          have haddr : q.1 = q'.1 := Option.some.inj hfirst
          have hread := hl.1
          rw [haddr, hl'.1, Option.some.injEq, Node.mk.injEq] at hread
          rw [ih hl.2 hl'.2 hread.1.symm, Prod.ext haddr hread.2.symm]

/-- A list comes to its end, so no cell is in it twice. -/
theorem Linked.nodup (hl : Linked h l) : (l.map Prod.fst).Nodup := by
  induction l with
  | nil => exact List.nodup_nil
  | cons q l ih =>
      refine List.nodup_cons.mpr ⟨fun hmem => ?_, ih hl.2⟩
      obtain ⟨r, hr, haddr⟩ := List.mem_map.mp hmem
      obtain ⟨front, back, hsplit⟩ := List.append_of_mem hr
      -- the cells from the second occurrence on would be the whole list
      have hback : Linked h (r :: back) := Linked.of_append (hsplit ▸ hl.2)
      have heq := hl.eq_of_first hback (congrArg some haddr.symm)
      have hlen := congrArg List.length heq
      rw [hsplit, List.length_cons, List.length_append, List.length_cons] at hlen
      omega

theorem Linked.length_le (hl : Linked h l) : l.length ≤ h.top := by
  have hsub : l.map Prod.fst ⊆ List.range h.top := fun a ha =>
    List.mem_range.mpr (Heap.lt_top (hl.isSome ha))
  have hle := (List.subperm_of_subset hl.nodup hsub).length_le
  rwa [List.length_map, List.length_range] at hle

/-! ## Operations -/

/-- What a cell holds is exchanged. -/
theorem Linked.write {q : ℕ × β} (hl : Linked h (l₁ ++ q :: l₂)) (y : β) :
    ∃ h', h.write q.1 ⟨first l₂, y⟩ = some h' ∧ Linked h' (l₁ ++ (q.1, y) :: l₂) ∧
      h'.top = h.top ∧ ∀ a, a ≠ q.1 → h'.read a = h.read a := by
  have hnodup := hl.nodup
  rw [List.map_append, List.map_cons, List.nodup_middle, List.nodup_cons] at hnodup
  have hthere : (h.read q.1).isSome := hl.isSome (by simp)
  have hread := h.read_set (some ⟨first l₂, y⟩) hthere
  have hsame : ∀ a, a ≠ q.1 → (h.set q.1 (some ⟨first l₂, y⟩) hthere).read a = h.read a :=
    fun a ha => by rw [hread, if_neg ha]
  refine ⟨_, Heap.write_of_isSome _ hthere, ?_, rfl, hsame⟩
  refine hl.replace_tail ⟨by rw [hread, if_pos rfl], ?_⟩ rfl fun a ha => hsame a ?_
  · refine hl.of_append.2.congr fun a ha => hsame a ?_
    rintro rfl
    exact hnodup.1 (List.mem_append_right _ ha)
  · rintro rfl
    exact hnodup.1 (List.mem_append_left _ ha)

/-- A cell behind another is taken out and freed. -/
theorem Linked.unlink {p q : ℕ × β} (hl : Linked h (l₁ ++ p :: q :: l₂)) :
    ∃ h₁ h₂, h.write p.1 ⟨first l₂, p.2⟩ = some h₁ ∧ h₁.free q.1 = some h₂ ∧
      Linked h₂ (l₁ ++ p :: l₂) ∧ h₂.top = h.top ∧ h₂.read q.1 = none ∧
      ∀ a, a ≠ p.1 → a ≠ q.1 → h₂.read a = h.read a := by
  have hnodup := hl.nodup
  rw [List.map_append, List.map_cons, List.map_cons, List.nodup_middle, List.nodup_cons] at hnodup
  obtain ⟨hp, hrest⟩ := hnodup
  rw [List.nodup_middle, List.nodup_cons] at hrest
  have hne : q.1 ≠ p.1 := by
    intro heq
    exact hp (by simp [heq])
  have hpthere : (h.read p.1).isSome := hl.isSome (by simp)
  have hread := h.read_set (some ⟨first l₂, p.2⟩) hpthere
  have hqthere : ((h.set p.1 (some ⟨first l₂, p.2⟩) hpthere).read q.1).isSome := by
    rw [hread, if_neg hne]
    exact hl.isSome (by simp)
  have hread₂ := Heap.read_set _ none hqthere
  have hsame : ∀ a, a ≠ p.1 → a ≠ q.1 →
      ((h.set p.1 (some ⟨first l₂, p.2⟩) hpthere).set q.1 none hqthere).read a = h.read a :=
    fun a hap haq => by rw [hread₂, if_neg haq, hread, if_neg hap]
  refine ⟨_, _, Heap.write_of_isSome _ hpthere, Heap.free_of_isSome hqthere, ?_, rfl,
    by rw [hread₂, if_pos rfl], hsame⟩
  refine hl.replace_tail ⟨by rw [hread₂, if_neg hne.symm, hread, if_pos rfl], ?_⟩ rfl
    fun a ha => hsame a ?_ ?_
  · refine hl.of_append.2.2.congr fun a ha => hsame a ?_ ?_
    · rintro rfl
      exact hp (by simp [ha])
    · rintro rfl
      exact hrest.1 (List.mem_append_right _ ha)
  · rintro rfl
    exact hp (List.mem_append_left _ ha)
  · rintro rfl
    exact hrest.1 (List.mem_append_left _ ha)

/-- A new cell is put in behind the first one. -/
theorem Linked.push {p : ℕ × β} (hl : Linked h (p :: l)) (y : β) :
    ∃ h', (h.alloc ⟨first l, y⟩).2.write p.1 ⟨some h.top, p.2⟩ = some h' ∧
      Linked h' (p :: (h.top, y) :: l) ∧ h'.top = h.top + 1 ∧
      ∀ a, a ≠ p.1 → a ≠ h.top → h'.read a = h.read a := by
  have hlt : ∀ a ∈ (p :: l).map Prod.fst, a ≠ h.top := fun a ha =>
    Nat.ne_of_lt (Heap.lt_top (hl.isSome ha))
  have hnodup := hl.nodup
  rw [List.map_cons, List.nodup_cons] at hnodup
  have hp := hlt p.1 List.mem_cons_self
  have halloc := h.read_alloc ⟨first l, y⟩
  have hthere : ((h.alloc ⟨first l, y⟩).2.read p.1).isSome := by
    rw [halloc, if_neg hp]
    exact hl.isSome List.mem_cons_self
  have hread := Heap.read_set _ (some ⟨some h.top, p.2⟩) hthere
  refine ⟨_, Heap.write_of_isSome _ hthere, ⟨by rw [hread, if_pos rfl]; rfl, ?_, ?_⟩, rfl, ?_⟩
  · rw [hread, if_neg hp.symm, halloc, if_pos rfl]
  · refine hl.2.congr fun a ha => ?_
    have hne : a ≠ p.1 := by
      rintro rfl
      exact hnodup.1 ha
    rw [hread, if_neg hne, halloc, if_neg (hlt a (List.mem_cons_of_mem _ ha))]
  · intro a hap hat
    rw [hread, if_neg hap, halloc, if_neg hat]

end EceLib.Support
