import Mathlib.Order.CompletePartialOrder
import Mathlib.Order.Interval.Set.Disjoint
import Mathlib.Data.List.Basic

/-!
# Segments in a row

Objects that occupy a half-open segment of a linear order each.  In a row the
segments are not empty, follow each other without overlap, and lie between two
bounds.  A new segment has a place in the row precisely when it is disjoint
from all the others, and there is only one such place.
-/

namespace EceLib.Support

variable {α β : Type*} [LinearOrder β] {lo hi : α → β} {start stop : β}

/-- The segment an object occupies. -/
def segment (lo hi : α → β) (a : α) : Set β := Set.Ico (lo a) (hi a)

/-- The objects of the list occupy segments between `start` and `stop`, one
behind the other. -/
structure InRow (lo hi : α → β) (start stop : β) (as : List α) : Prop where
  nonempty : ∀ a ∈ as, lo a < hi a
  pairwise : as.Pairwise fun a b => hi a ≤ lo b
  start_le : ∀ a ∈ as, start ≤ lo a
  le_stop : ∀ a ∈ as, hi a ≤ stop

/-- Of two segments that are disjoint one lies in front of the other. -/
theorem disjoint_segment_iff {a b : α} (ha : lo a < hi a) (hb : lo b < hi b) :
    Disjoint (segment lo hi a) (segment lo hi b) ↔ hi a ≤ lo b ∨ hi b ≤ lo a := by
  unfold segment
  rw [Set.Ico_disjoint_Ico, min_le_iff, le_max_iff, le_max_iff]
  constructor
  · rintro ((h | h) | (h | h))
    · exact absurd h (not_le.mpr ha)
    · exact Or.inl h
    · exact Or.inr h
    · exact absurd h (not_le.mpr hb)
  · rintro (h | h)
    · exact Or.inl (Or.inr h)
    · exact Or.inr (Or.inl h)

theorem inRow_nil : InRow lo hi start stop [] where
  nonempty := by simp
  pairwise := List.Pairwise.nil
  start_le := by simp
  le_stop := by simp

theorem inRow_cons {a : α} {as : List α} :
    InRow lo hi start stop (a :: as) ↔
      start ≤ lo a ∧ lo a < hi a ∧ hi a ≤ stop ∧ InRow lo hi (hi a) stop as := by
  constructor
  · intro h
    obtain ⟨hfirst, hrest⟩ := List.pairwise_cons.mp h.pairwise
    refine ⟨h.start_le a (by simp), h.nonempty a (by simp), h.le_stop a (by simp), ?_⟩
    exact ⟨fun b hb => h.nonempty b (by simp [hb]), hrest, hfirst,
      fun b hb => h.le_stop b (by simp [hb])⟩
  · rintro ⟨hstart, hne, hstop, h⟩
    refine ⟨?_, List.pairwise_cons.mpr ⟨h.start_le, h.pairwise⟩, ?_, ?_⟩
    · exact List.forall_mem_cons.mpr ⟨hne, h.nonempty⟩
    · exact List.forall_mem_cons.mpr
        ⟨hstart, fun b hb => hstart.trans (hne.le.trans (h.start_le b hb))⟩
    · exact List.forall_mem_cons.mpr ⟨hstop, h.le_stop⟩

namespace InRow

/-- What is left when objects are taken out is in a row. -/
theorem sublist {as bs : List α} (h : InRow lo hi start stop as) (hsub : bs.Sublist as) :
    InRow lo hi start stop bs where
  nonempty := fun b hb => h.nonempty b (hsub.subset hb)
  pairwise := h.pairwise.sublist hsub
  start_le := fun b hb => h.start_le b (hsub.subset hb)
  le_stop := fun b hb => h.le_stop b (hsub.subset hb)

/-- The objects are sorted by where they begin. -/
theorem pairwise_lo {as : List α} (h : InRow lo hi start stop as) :
    as.Pairwise fun a b => lo a < lo b := by
  refine h.pairwise.imp_of_mem ?_
  intro a b ha _ hab
  exact (h.nonempty a ha).trans_le hab

theorem pairwise_disjoint {as : List α} (h : InRow lo hi start stop as) :
    as.Pairwise fun a b => Disjoint (segment lo hi a) (segment lo hi b) := by
  refine h.pairwise.imp_of_mem ?_
  intro a b ha hb hab
  exact (disjoint_segment_iff (h.nonempty a ha) (h.nonempty b hb)).mpr (Or.inl hab)

/-- A segment that is disjoint from all the others has a place in the row. -/
theorem exists_split {as : List α} (h : InRow lo hi start stop as) {a : α} (ha : lo a < hi a)
    (hfree : ∀ b ∈ as, Disjoint (segment lo hi a) (segment lo hi b)) :
    ∃ front back, as = front ++ back ∧ (∀ b ∈ front, hi b ≤ lo a) ∧ ∀ b ∈ back, hi a ≤ lo b := by
  induction as generalizing start with
  | nil => exact ⟨[], [], rfl, by simp, by simp⟩
  | cons b as ih =>
      obtain ⟨_, hb, _, hrest⟩ := inRow_cons.mp h
      obtain ⟨hfirst, hfree⟩ := List.forall_mem_cons.mp hfree
      rcases (disjoint_segment_iff ha hb).mp hfirst with hab | hba
      · refine ⟨[], b :: as, rfl, by simp, List.forall_mem_cons.mpr ⟨hab, ?_⟩⟩
        intro c hc
        exact hab.trans (hb.le.trans (hrest.start_le c hc))
      · obtain ⟨front, back, rfl, hfront, hback⟩ := ih hrest hfree
        exact ⟨b :: front, back, rfl, List.forall_mem_cons.mpr ⟨hba, hfront⟩, hback⟩

/-- A segment between the two parts of a row is disjoint from all of it. -/
theorem disjoint_of_split {front back : List α} (h : InRow lo hi start stop (front ++ back))
    {a : α} (ha : lo a < hi a) (hfront : ∀ b ∈ front, hi b ≤ lo a)
    (hback : ∀ b ∈ back, hi a ≤ lo b) :
    ∀ b ∈ front ++ back, Disjoint (segment lo hi a) (segment lo hi b) := by
  intro b hb
  rw [disjoint_segment_iff ha (h.nonempty b hb)]
  rcases List.mem_append.mp hb with hb | hb
  · exact Or.inr (hfront b hb)
  · exact Or.inl (hback b hb)

/-- A segment that is put in its place makes a longer row. -/
theorem insert {front back : List α} (h : InRow lo hi start stop (front ++ back)) {a : α}
    (ha : lo a < hi a) (hstart : start ≤ lo a) (hstop : hi a ≤ stop)
    (hfront : ∀ b ∈ front, hi b ≤ lo a) (hback : ∀ b ∈ back, hi a ≤ lo b) :
    InRow lo hi start stop (front ++ a :: back) := by
  have hmem : ∀ {P : α → Prop}, P a → (∀ b ∈ front ++ back, P b) →
      ∀ b ∈ front ++ a :: back, P b := by
    intro P hPa hP b hb
    rcases List.mem_cons.mp (List.perm_middle.mem_iff.mp hb) with rfl | hb
    · exact hPa
    · exact hP b hb
  refine ⟨hmem ha h.nonempty, ?_, hmem hstart h.start_le, hmem hstop h.le_stop⟩
  obtain ⟨hpf, hpb, hfb⟩ := List.pairwise_append.mp h.pairwise
  refine List.pairwise_append.mpr ⟨hpf, List.pairwise_cons.mpr ⟨hback, hpb⟩, ?_⟩
  intro b hb c hc
  rcases List.mem_cons.mp hc with rfl | hc
  · exact hfront b hb
  · exact hfb b hb c hc

end InRow

end EceLib.Support
