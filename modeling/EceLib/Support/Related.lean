import EceLib.Support.Memory
import EceLib.Support.Run

/-!
# Two computations side by side

Two computations are related by `R` when both stop, or both have results and
`R` relates these.  The rules below follow the computations step by step.  The
last section compares a run with the run on some of its events: the events that
are left out have to leave the relation alone.
-/

namespace EceLib.Support

namespace Traced

variable {β α γ δ ζ : Type}

/-- Both computations stop, or both have results, related by `R`. -/
def Related (R : α → γ → Prop) (x : Traced β α) (y : Traced β γ) : Prop :=
  Option.Rel R x.val y.val

variable {R : α → γ → Prop} {S : δ → ζ → Prop}

theorem related_pure {a : α} {c : γ} (h : R a c) :
    Related R (pure a : Traced β α) (pure c) :=
  Option.Rel.some h

theorem related_stop : Related R (stop : Traced β α) stop := Option.Rel.none

theorem Related.bind {x : Traced β α} {y : Traced β γ} {f : α → Traced β δ}
    {g : γ → Traced β ζ} (h : Related R x y) (hfg : ∀ a c, R a c → Related S (f a) (g c)) :
    Related S (x >>= f) (y >>= g) := by
  unfold Related at *
  rw [val_bind, val_bind]
  generalize x.val = a at h
  generalize y.val = c at h
  cases h with
  | none => exact Option.Rel.none
  | some hac => exact hfg _ _ hac

/-- The accesses do not matter. -/
theorem Related.touch_bind {a b : Access β} {f : Unit → Traced β δ} {g : Unit → Traced β ζ}
    (h : Related S (f ()) (g ())) : Related S (touch a >>= f) (touch b >>= g) := by
  unfold Related at *
  simpa only [val_bind, val_touch, Option.bind_some] using h

/-- A computation that both sides begin with. -/
theorem Related.same_bind (x : Traced β α) {f : α → Traced β δ} {g : α → Traced β ζ}
    (h : ∀ a, Related S (f a) (g a)) : Related S (x >>= f) (x >>= g) := by
  have hsame : Related Eq x x := by
    unfold Related
    cases x.val with
    | none => exact Option.Rel.none
    | some a => exact Option.Rel.some rfl
  apply hsame.bind
  rintro a _ rfl
  exact h a

/-- The results are worked on once more. -/
theorem Related.map_val {x : Traced β α} {y : Traced β γ} {f : α → δ} {g : γ → ζ}
    (h : Related R x y) (hfg : ∀ a c, R a c → S (f a) (g c)) :
    Option.Rel S (x.val.map f) (y.val.map g) := by
  unfold Related at h
  generalize x.val = a at h
  generalize y.val = c at h
  cases h with
  | none => exact Option.Rel.none
  | some hac => exact Option.Rel.some (hfg _ _ hac)

/-- The second computation has a result when the first has one. -/
theorem Related.exists_val {x : Traced β α} {y : Traced β γ} {a : α} (h : Related R x y)
    (hx : x.val = some a) : ∃ c, y.val = some c ∧ R a c := by
  unfold Related at h
  rw [hx] at h
  generalize y.val = c at h
  cases h with
  | some hac => exact ⟨_, rfl, hac⟩

end Traced

/-! ## Runs on some of the events -/

variable {σ ε : Type*}

/-- Where every event that meets `C` has a result in a state with `K`, and keeps
`K`, so has a run of such events. -/
theorem exists_run {step : σ → ε → Option σ} {K : σ → Prop} {C : ε → Prop}
    (hstep : ∀ s e, K s → C e → ∃ s', step s e = some s' ∧ K s') {s : σ} {es : List ε}
    (hK : K s) (hC : ∀ e ∈ es, C e) : ∃ s', run step s es = some s' ∧ K s' := by
  induction es generalizing s with
  | nil => exact ⟨s, rfl, hK⟩
  | cons e es ih =>
      obtain ⟨s₁, hs₁, hK₁⟩ := hstep s e hK (hC e (by simp))
      obtain ⟨s', hrun, hK'⟩ := ih hK₁ fun e' he' => hC e' (by simp [he'])
      refine ⟨s', ?_, hK'⟩
      rw [run_cons, hs₁, Option.bind_some, hrun]

/-- The events chosen by `p` are followed by the second run, the others leave
the relation of the two states alone. -/
theorem run_filter_related {step : σ → ε → Option σ} {R : σ → σ → Prop} (p : ε → Bool)
    (hkeep : ∀ s t e s', R s t → p e = true → step s e = some s' →
      ∃ t', step t e = some t' ∧ R s' t')
    (hskip : ∀ s t e s', R s t → p e = false → step s e = some s' → R s' t)
    {s t s' : σ} {es : List ε} (hR : R s t) (hrun : run step s es = some s') :
    ∃ t', run step t (es.filter p) = some t' ∧ R s' t' := by
  induction es generalizing s t with
  | nil =>
      cases hrun
      exact ⟨t, rfl, hR⟩
  | cons e es ih =>
      obtain ⟨s₁, hs₁, hrest⟩ := run_cons_eq_some hrun
      by_cases hp : p e = true
      · obtain ⟨t₁, ht₁, hR₁⟩ := hkeep s t e s₁ hR hp hs₁
        obtain ⟨t', hrun', hR'⟩ := ih hR₁ hrest
        refine ⟨t', ?_, hR'⟩
        rw [List.filter_cons_of_pos hp, run_cons, ht₁, Option.bind_some, hrun']
      · have hR₁ := hskip s t e s₁ hR (by simpa using hp) hs₁
        rw [List.filter_cons_of_neg hp]
        exact ih hR₁ hrest

end EceLib.Support
