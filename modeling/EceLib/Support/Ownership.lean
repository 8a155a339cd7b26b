import Mathlib.Data.List.Nodup
import Mathlib.Logic.Function.Basic
import Mathlib.Logic.Relation

/-!
# Members of groups that come and go

Members belong to groups.  A group is known by a name and has a list of its
members; a member points to its group by the name and a serial number, which
tells the group from a later one of the same name.  Discarding a group does not
ask its members.

Whatever happens, the lists of the groups and the pointers of the members fit
together (`Sound`).  That no pointer dangles (`Complete`) is kept by everything
but the discarding of a group that still has members.
-/

namespace EceLib.Support

variable {ι κ : Type} [DecidableEq ι] [DecidableEq κ]

/-- The pointers of the members, the serial numbers and lists of the groups, and
the next serial number. -/
structure Ownership (ι κ : Type) where
  owner : ι → Option (κ × ℕ)
  live : κ → Option (ℕ × List ι)
  next : ℕ

namespace Ownership

/-- The lists hold members that point back, none of them twice, and miss none. -/
structure Sound (o : Ownership ι κ) : Prop where
  owned : ∀ {k n l i}, o.live k = some (n, l) → i ∈ l → o.owner i = some (k, n)
  nodup : ∀ {k n l}, o.live k = some (n, l) → l.Nodup
  listed : ∀ {k n l i}, o.live k = some (n, l) → o.owner i = some (k, n) → i ∈ l
  fresh : ∀ {k n l}, o.live k = some (n, l) → n < o.next
  owner_fresh : ∀ {i k n}, o.owner i = some (k, n) → n < o.next

/-- Every member points to a group that exists. -/
def Complete (o : Ownership ι κ) : Prop :=
  ∀ i k n, o.owner i = some (k, n) → ∃ l, o.live k = some (n, l)

/-- One change; the label is the group that is discarded, if any. -/
inductive Step : Option κ → Ownership ι κ → Ownership ι κ → Prop where
  | create {o : Ownership ι κ} {k : κ} (h : o.live k = none) :
      Step none o
        { o with live := Function.update o.live k (some (o.next, [])), next := o.next + 1 }
  | discard (o : Ownership ι κ) (k : κ) :
      Step (some k) o { o with live := Function.update o.live k none }
  | add {o : Ownership ι κ} {i : ι} {k : κ} {n : ℕ} {l : List ι}
      (howner : o.owner i = none) (hlive : o.live k = some (n, l)) :
      Step none o
        { o with
          owner := Function.update o.owner i (some (k, n))
          live := Function.update o.live k (some (n, l ++ [i])) }
  | take {o : Ownership ι κ} {i : ι} {k : κ} {n : ℕ} {l : List ι}
      (howner : o.owner i = some (k, n)) (hlive : o.live k = some (n, l)) :
      Step none o
        { o with
          owner := Function.update o.owner i none
          live := Function.update o.live k (some (n, l.erase i)) }

variable {o o' : Ownership ι κ} {label : Option κ}

private theorem Sound.create (hs : o.Sound) {k : κ} (h : o.live k = none) :
    Sound { o with live := Function.update o.live k (some (o.next, [])), next := o.next + 1 } where
  owned := fun {k' n l i} hlive hi => by
    by_cases hk : k' = k
    · subst hk
      simp only [Function.update_self, Option.some.injEq, Prod.mk.injEq] at hlive
      simp [← hlive.2] at hi
    · simp only [Function.update_of_ne hk] at hlive
      exact hs.owned hlive hi
  nodup := fun {k' n l} hlive => by
    by_cases hk : k' = k
    · subst hk
      simp only [Function.update_self, Option.some.injEq, Prod.mk.injEq] at hlive
      simp [← hlive.2]
    · simp only [Function.update_of_ne hk] at hlive
      exact hs.nodup hlive
  listed := fun {k' n l i} hlive howner => by
    by_cases hk : k' = k
    · subst hk
      simp only [Function.update_self, Option.some.injEq, Prod.mk.injEq] at hlive
      -- the serial number of the new group is not yet in use
      have hlt := hs.owner_fresh howner
      omega
    · simp only [Function.update_of_ne hk] at hlive
      exact hs.listed hlive howner
  fresh := fun {k' n l} hlive => by
    by_cases hk : k' = k
    · subst hk
      simp only [Function.update_self, Option.some.injEq, Prod.mk.injEq] at hlive
      change n < o.next + 1
      omega
    · simp only [Function.update_of_ne hk] at hlive
      exact Nat.lt_succ_of_lt (hs.fresh hlive)
  owner_fresh := fun howner => Nat.lt_succ_of_lt (hs.owner_fresh howner)

omit [DecidableEq ι] in
private theorem Sound.discard (hs : o.Sound) (k : κ) :
    Sound { o with live := Function.update o.live k none } := by
  have hold : ∀ {k' n l}, Function.update o.live k none k' = some (n, l) →
      o.live k' = some (n, l) := by
    intro k' n l hlive
    by_cases hk : k' = k
    · subst hk
      simp at hlive
    · rwa [Function.update_of_ne hk] at hlive
  exact
    { owned := fun hlive => hs.owned (hold hlive)
      nodup := fun hlive => hs.nodup (hold hlive)
      listed := fun hlive => hs.listed (hold hlive)
      fresh := fun hlive => hs.fresh (hold hlive)
      owner_fresh := hs.owner_fresh }

private theorem Sound.add (hs : o.Sound) {i : ι} {k : κ} {n : ℕ} {l : List ι}
    (howner : o.owner i = none) (hlive : o.live k = some (n, l)) :
    Sound
      { o with
        owner := Function.update o.owner i (some (k, n))
        live := Function.update o.live k (some (n, l ++ [i])) } := by
  have hnot : ∀ {k' n' l'}, o.live k' = some (n', l') → i ∉ l' := fun hlive' hi => by
    rw [hs.owned hlive' hi] at howner
    cases howner
  constructor
  case owned =>
    intro k' n' l' i' hlive' hi'
    by_cases hk : k' = k
    · subst hk
      simp only [Function.update_self, Option.some.injEq, Prod.mk.injEq] at hlive'
      obtain ⟨rfl, rfl⟩ := hlive'
      by_cases hii : i' = i
      · simp [hii]
      · simp only [Function.update_of_ne hii]
        exact hs.owned hlive (by simpa [hii] using hi')
    · simp only [Function.update_of_ne hk] at hlive'
      have hii : i' ≠ i := fun heq => hnot hlive' (heq ▸ hi')
      simp only [Function.update_of_ne hii]
      exact hs.owned hlive' hi'
  case nodup =>
    intro k' n' l' hlive'
    by_cases hk : k' = k
    · subst hk
      simp only [Function.update_self, Option.some.injEq, Prod.mk.injEq] at hlive'
      obtain ⟨rfl, rfl⟩ := hlive'
      exact (hs.nodup hlive).append (List.nodup_singleton i) (by simpa using hnot hlive)
    · simp only [Function.update_of_ne hk] at hlive'
      exact hs.nodup hlive'
  case listed =>
    intro k' n' l' i' hlive' howner'
    by_cases hk : k' = k
    · subst hk
      simp only [Function.update_self, Option.some.injEq, Prod.mk.injEq] at hlive'
      obtain ⟨rfl, rfl⟩ := hlive'
      by_cases hii : i' = i
      · simp [hii]
      · simp only [Function.update_of_ne hii] at howner'
        exact List.mem_append_left _ (hs.listed hlive howner')
    · simp only [Function.update_of_ne hk] at hlive'
      by_cases hii : i' = i
      · subst hii
        simp only [Function.update_self, Option.some.injEq, Prod.mk.injEq] at howner'
        exact absurd howner'.1.symm hk
      · simp only [Function.update_of_ne hii] at howner'
        exact hs.listed hlive' howner'
  case fresh =>
    intro k' n' l' hlive'
    by_cases hk : k' = k
    · subst hk
      simp only [Function.update_self, Option.some.injEq, Prod.mk.injEq] at hlive'
      obtain ⟨rfl, _⟩ := hlive'
      exact hs.fresh hlive
    · simp only [Function.update_of_ne hk] at hlive'
      exact hs.fresh hlive'
  case owner_fresh =>
    intro i' k' n' howner'
    by_cases hii : i' = i
    · subst hii
      simp only [Function.update_self, Option.some.injEq, Prod.mk.injEq] at howner'
      obtain ⟨_, rfl⟩ := howner'
      exact hs.fresh hlive
    · simp only [Function.update_of_ne hii] at howner'
      exact hs.owner_fresh howner'

private theorem Sound.take (hs : o.Sound) {i : ι} {k : κ} {n : ℕ} {l : List ι}
    (howner : o.owner i = some (k, n)) (hlive : o.live k = some (n, l)) :
    Sound
      { o with
        owner := Function.update o.owner i none
        live := Function.update o.live k (some (n, l.erase i)) } := by
  have hnodup : l.Nodup := hs.nodup hlive
  constructor
  case owned =>
    intro k' n' l' i' hlive' hi'
    by_cases hk : k' = k
    · subst hk
      simp only [Function.update_self, Option.some.injEq, Prod.mk.injEq] at hlive'
      obtain ⟨rfl, rfl⟩ := hlive'
      obtain ⟨hii, hmem⟩ := hnodup.mem_erase_iff.mp hi'
      simp only [Function.update_of_ne hii]
      exact hs.owned hlive hmem
    · simp only [Function.update_of_ne hk] at hlive'
      have hii : i' ≠ i := fun heq => by
        subst heq
        have hsame := (hs.owned hlive' hi').symm.trans howner
        simp only [Option.some.injEq, Prod.mk.injEq] at hsame
        exact hk hsame.1
      simp only [Function.update_of_ne hii]
      exact hs.owned hlive' hi'
  case nodup =>
    intro k' n' l' hlive'
    by_cases hk : k' = k
    · subst hk
      simp only [Function.update_self, Option.some.injEq, Prod.mk.injEq] at hlive'
      obtain ⟨rfl, rfl⟩ := hlive'
      exact hnodup.erase i
    · simp only [Function.update_of_ne hk] at hlive'
      exact hs.nodup hlive'
  case listed =>
    intro k' n' l' i' hlive' howner'
    by_cases hii : i' = i
    · subst hii
      simp at howner'
    · simp only [Function.update_of_ne hii] at howner'
      by_cases hk : k' = k
      · subst hk
        simp only [Function.update_self, Option.some.injEq, Prod.mk.injEq] at hlive'
        obtain ⟨rfl, rfl⟩ := hlive'
        exact hnodup.mem_erase_iff.mpr ⟨hii, hs.listed hlive howner'⟩
      · simp only [Function.update_of_ne hk] at hlive'
        exact hs.listed hlive' howner'
  case fresh =>
    intro k' n' l' hlive'
    by_cases hk : k' = k
    · subst hk
      simp only [Function.update_self, Option.some.injEq, Prod.mk.injEq] at hlive'
      obtain ⟨rfl, _⟩ := hlive'
      exact hs.fresh hlive
    · simp only [Function.update_of_ne hk] at hlive'
      exact hs.fresh hlive'
  case owner_fresh =>
    intro i' k' n' howner'
    by_cases hii : i' = i
    · subst hii
      simp at howner'
    · simp only [Function.update_of_ne hii] at howner'
      exact hs.owner_fresh howner'

/-- The lists and the pointers fit together after every change. -/
theorem Step.sound (h : Step label o o') (hs : o.Sound) : o'.Sound := by
  cases h with
  | create hk => exact hs.create hk
  | discard _ k => exact hs.discard k
  | add howner hlive => exact hs.add howner hlive
  | take howner hlive => exact hs.take howner hlive

/-- No pointer dangles after a change precisely when it did not discard a group
with members. -/
theorem Step.complete_iff (h : Step label o o') (hs : o.Sound) (hc : o.Complete) :
    o'.Complete ↔ ∀ k, label = some k → ∀ n l, o.live k = some (n, l) → l = [] := by
  cases h with
  | create hk =>
      refine iff_of_true ?_ (by simp)
      intro i k' n howner
      obtain ⟨l, hlive⟩ := hc i k' n howner
      have hne : k' ≠ _ := fun heq => by
        rw [heq, hk] at hlive
        cases hlive
      exact ⟨l, by simp only [Function.update_of_ne hne, hlive]⟩
  | discard _ k =>
      simp only [Option.some.injEq, forall_eq']
      constructor
      · intro hc' n l hlive
        apply List.eq_nil_iff_forall_not_mem.mpr
        intro i hi
        obtain ⟨l', hlive'⟩ := hc' i k n (hs.owned hlive hi)
        simp at hlive'
      · intro hempty i k' n howner
        obtain ⟨l, hlive⟩ := hc i k' n howner
        have hmem := hs.listed hlive howner
        have hne : k' ≠ k := fun heq => by
          rw [hempty n l (heq ▸ hlive)] at hmem
          cases hmem
        exact ⟨l, by simp only [Function.update_of_ne hne, hlive]⟩
  | @add _ i k n l howner hlive =>
      refine iff_of_true ?_ (by simp)
      intro i' k' n' howner'
      by_cases hk : k' = k
      · subst hk
        refine ⟨l ++ [i], ?_⟩
        simp only [Function.update_self, Option.some.injEq, Prod.mk.injEq, and_true]
        by_cases hii : i' = i
        · subst hii
          simpa using howner'
        · simp only [Function.update_of_ne hii] at howner'
          obtain ⟨l', hlive'⟩ := hc i' k' n' howner'
          rw [hlive] at hlive'
          simpa using congrArg (Option.map Prod.fst) hlive'
      · simp only [Function.update_of_ne hk]
        by_cases hii : i' = i
        · subst hii
          simp only [Function.update_self, Option.some.injEq, Prod.mk.injEq] at howner'
          exact absurd howner'.1.symm hk
        · simp only [Function.update_of_ne hii] at howner'
          exact hc i' k' n' howner'
  | @take _ i k n l howner hlive =>
      refine iff_of_true ?_ (by simp)
      intro i' k' n' howner'
      by_cases hii : i' = i
      · subst hii
        simp at howner'
      · simp only [Function.update_of_ne hii] at howner'
        obtain ⟨l', hlive'⟩ := hc i' k' n' howner'
        by_cases hk : k' = k
        · subst hk
          rw [hlive] at hlive'
          refine ⟨l.erase i, ?_⟩
          simpa using congrArg (Option.map Prod.fst) hlive'
        · exact ⟨l', by simp only [Function.update_of_ne hk, hlive']⟩

/-- Changes that discard no group. -/
abbrev Steps : Ownership ι κ → Ownership ι κ → Prop := Relation.ReflTransGen (Step none)

theorem Steps.sound (h : Steps o o') (hs : o.Sound) : o'.Sound := by
  induction h with
  | refl => exact hs
  | tail _ hstep ih => exact hstep.sound ih

theorem Steps.complete (h : Steps o o') (hs : o.Sound) (hc : o.Complete) : o'.Complete := by
  induction h with
  | refl => exact hc
  | tail hsteps hstep ih => exact (hstep.complete_iff (Steps.sound hsteps hs) ih).mpr (by simp)

/-- Serial numbers are not given again. -/
theorem Step.next_le (h : Step label o o') : o.next ≤ o'.next := by
  cases h with
  | create => exact Nat.le_succ o.next
  | discard | add | take => exact Nat.le_refl _

theorem Steps.next_le (h : Steps o o') : o.next ≤ o'.next := by
  induction h with
  | refl => exact Nat.le_refl _
  | tail _ hstep ih => exact Nat.le_trans ih hstep.next_le

end Ownership

end EceLib.Support
