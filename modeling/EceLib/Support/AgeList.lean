import Mathlib.Data.List.Nodup
import Mathlib.Logic.Function.Basic

/-!
# Lists in the order of the last use

Members carry the time of their last use, and a list holds them in that order,
the oldest first.  A member that is used goes to the end of the list.  As long
as time does not go back the list stays sorted, so a scan from the front may end
at the first member that is young enough.
-/

namespace EceLib.Support

variable {ι : Type} [DecidableEq ι]

/-- The times of last use, the list, and the current time. -/
structure AgeList (ι : Type) where
  ts : ι → Option ℕ
  order : List ι
  now : ℕ

namespace AgeList

/-- The list holds every member once, and in the order of the times, none of
which lies in the future. -/
structure Ordered (a : AgeList ι) : Prop where
  nodup : a.order.Nodup
  mem_iff : ∀ i, i ∈ a.order ↔ (a.ts i).isSome
  sorted : a.order.Pairwise fun i j => ∀ m n, a.ts i = some m → a.ts j = some n → m ≤ n
  past : ∀ i n, a.ts i = some n → n ≤ a.now

/-- One change: time passes, a member joins or is used, a member leaves. -/
inductive Step : AgeList ι → AgeList ι → Prop where
  | wait {a : AgeList ι} {t : ℕ} (h : a.now ≤ t) : Step a { a with now := t }
  | touch {a : AgeList ι} (i : ι) {t : ℕ} (h : a.now ≤ t) :
      Step a
        { ts := Function.update a.ts i (some t), order := a.order.erase i ++ [i], now := t }
  | drop (a : AgeList ι) (i : ι) :
      Step a { a with ts := Function.update a.ts i none, order := a.order.erase i }

variable {a a' : AgeList ι}

/-- The order of the others is not changed when a member is taken out. -/
private theorem Ordered.sorted_erase (ha : a.Ordered) (i : ι) (t : Option ℕ) :
    (a.order.erase i).Pairwise fun j k => ∀ m n,
      Function.update a.ts i t j = some m → Function.update a.ts i t k = some n → m ≤ n := by
  have herase : (a.order.erase i).Sublist a.order := List.erase_sublist
  have hsub := ha.sorted.sublist herase
  refine hsub.imp_of_mem ?_
  intro j k hj hk hjk m n hm hn
  have hji : j ≠ i := (ha.nodup.mem_erase_iff.mp hj).1
  have hki : k ≠ i := (ha.nodup.mem_erase_iff.mp hk).1
  rw [Function.update_of_ne hji] at hm
  rw [Function.update_of_ne hki] at hn
  exact hjk m n hm hn

omit [DecidableEq ι] in
private theorem Ordered.wait (ha : a.Ordered) {t : ℕ} (h : a.now ≤ t) :
    Ordered { a with now := t } where
  nodup := ha.nodup
  mem_iff := ha.mem_iff
  sorted := ha.sorted
  past := fun i n hn => Nat.le_trans (ha.past i n hn) h

private theorem Ordered.touch (ha : a.Ordered) (i : ι) {t : ℕ} (h : a.now ≤ t) :
    Ordered
      { ts := Function.update a.ts i (some t), order := a.order.erase i ++ [i], now := t } where
  nodup := by
    refine (ha.nodup.erase i).append (List.nodup_singleton i) ?_
    simpa using fun hmem => absurd rfl (ha.nodup.mem_erase_iff.mp hmem).1
  mem_iff := fun j => by
    by_cases hj : j = i
    · simp [hj]
    · simp [hj, ha.nodup.mem_erase_iff, ha.mem_iff]
  sorted := by
    rw [List.pairwise_append]
    refine ⟨ha.sorted_erase i (some t), List.pairwise_singleton _ _, ?_⟩
    intro j hj k hk m n hm hn
    have hji : j ≠ i := (ha.nodup.mem_erase_iff.mp hj).1
    rw [List.mem_singleton.mp hk] at hn
    simp only [Function.update_self, Option.some.injEq] at hn
    simp only [Function.update_of_ne hji] at hm
    have hpast := ha.past j m hm
    omega
  past := fun j n hn => by
    by_cases hj : j = i
    · subst hj
      simp only [Function.update_self, Option.some.injEq] at hn
      exact Nat.le_of_eq hn.symm
    · simp only [Function.update_of_ne hj] at hn
      exact Nat.le_trans (ha.past j n hn) h

private theorem Ordered.drop (ha : a.Ordered) (i : ι) :
    Ordered { a with ts := Function.update a.ts i none, order := a.order.erase i } where
  nodup := ha.nodup.erase i
  mem_iff := fun j => by
    by_cases hj : j = i
    · simp [hj, ha.nodup.mem_erase_iff]
    · simp [hj, ha.nodup.mem_erase_iff, ha.mem_iff]
  sorted := ha.sorted_erase i none
  past := fun j n hn => by
    by_cases hj : j = i
    · simp [hj] at hn
    · simp only [Function.update_of_ne hj] at hn
      exact ha.past j n hn

theorem Step.ordered (h : Step a a') (ha : a.Ordered) : a'.Ordered := by
  cases h with
  | wait h => exact ha.wait h
  | touch i h => exact ha.touch i h
  | drop i => exact ha.drop i

omit [DecidableEq ι] in
/-- No member is older than the first one of the list. -/
theorem Ordered.head_le (ha : a.Ordered) {i : ι} {rest : List ι} {m : ℕ}
    (horder : a.order = i :: rest) (hi : a.ts i = some m) {j : ι} {n : ℕ}
    (hj : a.ts j = some n) : m ≤ n := by
  have hmem : j ∈ i :: rest := horder ▸ (ha.mem_iff j).mpr (by simp [hj])
  rcases List.mem_cons.mp hmem with rfl | hrest
  · rw [hi, Option.some.injEq] at hj
    exact Nat.le_of_eq hj
  · have hsorted := ha.sorted
    rw [horder, List.pairwise_cons] at hsorted
    exact hsorted.1 j hrest m n hi hj

end AgeList

end EceLib.Support
