import Mathlib.Data.Option.Basic
import Mathlib.Data.List.Induction

/-!
# Runs of partial step functions

A step function takes a state and an event and returns the next state, or
`none` where the step has no defined result.  This module folds it over a list
of events and packages the two inductions the development uses: an invariant
kept by every step that meets a condition, and the exact version, where the
invariant holds throughout a run precisely when every step of it meets the
condition.
-/

namespace EceLib.Support

variable {σ ε : Type*}

/-- Perform the events in order, from `s`. -/
def run (step : σ → ε → Option σ) : σ → List ε → Option σ
  | s, [] => some s
  | s, e :: es => (step s e).bind fun s' => run step s' es

@[simp] theorem run_nil (step : σ → ε → Option σ) (s : σ) :
    run step s [] = some s := rfl

@[simp] theorem run_cons (step : σ → ε → Option σ) (s : σ) (e : ε) (es : List ε) :
    run step s (e :: es) = (step s e).bind fun s' => run step s' es := rfl

theorem run_cons_eq_some {step : σ → ε → Option σ} {s s' : σ} {e : ε} {es : List ε}
    (h : run step s (e :: es) = some s') :
    ∃ s₁, step s e = some s₁ ∧ run step s₁ es = some s' :=
  Option.bind_eq_some_iff.mp h

/-- A run is continued by a run from the state it leads to. -/
theorem run_append (step : σ → ε → Option σ) (s : σ) (es fs : List ε) :
    run step s (es ++ fs) = (run step s es).bind fun s' => run step s' fs := by
  induction es generalizing s with
  | nil => rfl
  | cons e es ih =>
      rw [List.cons_append, run_cons, run_cons]
      cases step s e with
      | none => rfl
      | some s₁ => exact ih s₁

theorem run_append_eq_some {step : σ → ε → Option σ} {s s' : σ} {es fs : List ε}
    (h : run step s (es ++ fs) = some s') :
    ∃ s₁, run step s es = some s₁ ∧ run step s₁ fs = some s' :=
  Option.bind_eq_some_iff.mp (run_append step s es fs ▸ h)

/-- `s` is reached from `s₀` by some finite run. -/
def Reachable (step : σ → ε → Option σ) (s₀ s : σ) : Prop :=
  ∃ es, run step s₀ es = some s

/-- Every step of the run that has a result meets the condition `C`, which
looks at the state before the step and at the event. -/
def StepsMeet (step : σ → ε → Option σ) (C : σ → ε → Prop) : σ → List ε → Prop
  | _, [] => True
  | s, e :: es => ∀ s', step s e = some s' → C s e ∧ StepsMeet step C s' es

/-- Every step that is tried in the run meets the condition, also one without a
result. -/
def EveryStep (step : σ → ε → Option σ) (C : σ → ε → Prop) : σ → List ε → Prop
  | _, [] => True
  | s, e :: es => C s e ∧ ∀ s', step s e = some s' → EveryStep step C s' es

/-- `I` holds in every state the run passes through. -/
def Throughout (step : σ → ε → Option σ) (I : σ → Prop) (s : σ) (es : List ε) : Prop :=
  ∀ fs, fs <+: es → ∀ s', run step s fs = some s' → I s'

theorem stepsMeet_cons {step : σ → ε → Option σ} {C : σ → ε → Prop} {s : σ} {e : ε}
    {es : List ε} :
    StepsMeet step C s (e :: es) ↔
      ∀ s', step s e = some s' → C s e ∧ StepsMeet step C s' es := Iff.rfl

instance decidableStepsMeet {step : σ → ε → Option σ} {C : σ → ε → Prop}
    [∀ s e, Decidable (C s e)] : ∀ s es, Decidable (StepsMeet step C s es)
  | _, [] => .isTrue trivial
  | s, e :: es =>
      match hstep : step s e with
      | none => .isTrue fun s' hs' => by simp [hstep] at hs'
      | some s₁ =>
          have : Decidable (StepsMeet step C s₁ es) := decidableStepsMeet s₁ es
          decidable_of_iff (C s e ∧ StepsMeet step C s₁ es)
            ⟨fun h s' hs' => by
              obtain rfl : s₁ = s' := Option.some.inj (hstep.symm.trans hs')
              exact h, fun h => h s₁ hstep⟩

instance decidableEveryStep {step : σ → ε → Option σ} {C : σ → ε → Prop}
    [∀ s e, Decidable (C s e)] : ∀ s es, Decidable (EveryStep step C s es)
  | _, [] => .isTrue trivial
  | s, e :: es =>
      match hstep : step s e with
      | none => decidable_of_iff (C s e) ⟨fun h => ⟨h, fun s' hs' => by simp [hstep] at hs'⟩,
          fun h => h.1⟩
      | some s₁ =>
          have : Decidable (EveryStep step C s₁ es) := decidableEveryStep s₁ es
          decidable_of_iff (C s e ∧ EveryStep step C s₁ es)
            ⟨fun h => ⟨h.1, fun s' hs' => by
              obtain rfl : s₁ = s' := Option.some.inj (hstep.symm.trans hs')
              exact h.2⟩, fun h => ⟨h.1, h.2 s₁ hstep⟩⟩

/-- A condition that no event of the list can violate is met by the run. -/
theorem stepsMeet_of_forall {step : σ → ε → Option σ} {C : σ → ε → Prop}
    {es : List ε} (h : ∀ e ∈ es, ∀ s, C s e) (s : σ) : StepsMeet step C s es := by
  induction es generalizing s with
  | nil => trivial
  | cons e es ih =>
      intro s' _
      exact ⟨h e (by simp) s, ih (fun e' he' => h e' (by simp [he'])) s'⟩

theorem everyStep_cons {step : σ → ε → Option σ} {C : σ → ε → Prop} {s : σ} {e : ε}
    {es : List ε} :
    EveryStep step C s (e :: es) ↔ C s e ∧ ∀ s', step s e = some s' → EveryStep step C s' es :=
  Iff.rfl

theorem EveryStep.mono {step : σ → ε → Option σ} {C D : σ → ε → Prop}
    (hCD : ∀ s e, C s e → D s e) {s : σ} {es : List ε}
    (h : EveryStep step C s es) : EveryStep step D s es := by
  induction es generalizing s with
  | nil => trivial
  | cons e es ih => exact ⟨hCD s e h.1, fun s' hs' => ih (h.2 s' hs')⟩

/-- The step that follows a part of the run meets the condition. -/
theorem EveryStep.of_append {step : σ → ε → Option σ} {C : σ → ε → Prop} {s s' : σ} {e : ε}
    {es fs : List ε} (h : EveryStep step C s (es ++ e :: fs)) (hrun : run step s es = some s') :
    C s' e := by
  induction es generalizing s with
  | nil =>
      cases hrun
      exact h.1
  | cons e' es ih =>
      obtain ⟨s₁, hstep, hrest⟩ := run_cons_eq_some hrun
      exact ih (h.2 s₁ hstep) hrest

/-- Conditions that agree wherever the invariant `K` holds agree on every run. -/
theorem everyStep_iff {step : σ → ε → Option σ} {C D : σ → ε → Prop} {K : σ → Prop}
    {A : ε → Prop} (hK : ∀ s e s', K s → A e → step s e = some s' → K s')
    (hCD : ∀ s e, K s → A e → (C s e ↔ D s e)) {s : σ} (hs : K s) {es : List ε}
    (hA : ∀ e ∈ es, A e) : EveryStep step C s es ↔ EveryStep step D s es := by
  induction es generalizing s with
  | nil => exact Iff.rfl
  | cons e es ih =>
      have he : A e := hA e (by simp)
      have hes : ∀ e ∈ es, A e := fun e' he' => hA e' (by simp [he'])
      rw [everyStep_cons, everyStep_cons, hCD s e hs he]
      exact and_congr_right fun _ =>
        forall₂_congr fun s' hstep => ih (hK s e s' hs he hstep) hes

/-- An invariant kept by every step that meets `C` holds at the end of every
run whose steps all meet `C`. -/
theorem run_preserves {step : σ → ε → Option σ} {C : σ → ε → Prop} {I : σ → Prop}
    (hstep : ∀ s e s', I s → C s e → step s e = some s' → I s')
    {s s' : σ} {es : List ε}
    (hI : I s) (hC : StepsMeet step C s es) (hrun : run step s es = some s') :
    I s' := by
  induction es generalizing s with
  | nil =>
      cases hrun
      exact hI
  | cons e es ih =>
      obtain ⟨s₁, hs₁, hrest⟩ := run_cons_eq_some hrun
      have hC₁ := hC s₁ hs₁
      exact ih (hstep s e s₁ hI hC₁.1 hs₁) hC₁.2 hrest

/-- An invariant kept by every step holds in every reachable state. -/
theorem Reachable.preserves {step : σ → ε → Option σ} {I : σ → Prop}
    (hstep : ∀ s e s', I s → step s e = some s' → I s')
    {s s' : σ} (hI : I s) (h : Reachable step s s') : I s' := by
  obtain ⟨es, hrun⟩ := h
  exact run_preserves (C := fun _ _ => True)
    (fun s e s' hs _ he => hstep s e s' hs he) hI
    (stepsMeet_of_forall (fun _ _ _ => trivial) s) hrun

theorem throughout_cons {step : σ → ε → Option σ} {I : σ → Prop} {s : σ} {e : ε}
    {es : List ε} :
    Throughout step I s (e :: es) ↔
      I s ∧ ∀ s', step s e = some s' → Throughout step I s' es := by
  constructor
  · intro h
    refine ⟨h [] (List.nil_prefix) s rfl, ?_⟩
    intro s₁ hs₁ fs hfs s' hrun
    exact h (e :: fs) (List.prefix_cons_inj e |>.mpr hfs) s' (by simpa [hs₁] using hrun)
  · rintro ⟨hI, hrest⟩ fs hfs s' hrun
    rcases List.prefix_cons_iff.mp hfs with rfl | ⟨gs, rfl, hgs⟩
    · cases hrun
      exact hI
    · obtain ⟨s₁, hs₁, hrun'⟩ := run_cons_eq_some hrun
      exact hrest s₁ hs₁ gs hgs s' hrun'

/-- An invariant kept by every step that meets `C` holds throughout a run all of
whose steps meet `C`. -/
theorem EveryStep.throughout {step : σ → ε → Option σ} {C : σ → ε → Prop} {I : σ → Prop}
    (hstep : ∀ s e s', I s → C s e → step s e = some s' → I s')
    {s : σ} {es : List ε} (hI : I s) (hC : EveryStep step C s es) : Throughout step I s es := by
  induction es generalizing s with
  | nil =>
      rintro fs hfs s' hrun
      obtain rfl := List.prefix_nil.mp hfs
      cases hrun
      exact hI
  | cons e es ih =>
      refine throughout_cons.mpr ⟨hI, fun s' hs' => ?_⟩
      exact ih (hstep s e s' hI hC.1 hs') (hC.2 s' hs')

theorem throughout_concat {step : σ → ε → Option σ} {I : σ → Prop} {s s₁ s₂ : σ} {e : ε}
    {es : List ε} (h : Throughout step I s es) (hrun : run step s es = some s₁)
    (hstep : step s₁ e = some s₂) (hI : I s₂) : Throughout step I s (es ++ [e]) := by
  intro fs hfs s' hs'
  rcases List.prefix_concat_iff.mp hfs with rfl | hfs
  · rw [run_append, hrun, Option.bind_some, run_cons, hstep] at hs'
    cases hs'
    exact hI
  · exact h fs hfs s' hs'

/-- If only events with `A` lead to states with `I`, then where `I` holds there
was such an event, and `I` has held since. -/
theorem exists_last_event {step : σ → ε → Option σ} {I : σ → Prop} {A : ε → Prop}
    (hstep : ∀ s e s', step s e = some s' → I s' → ¬ A e → I s) {s₀ s : σ} {es : List ε}
    (hstart : ¬ I s₀) (hrun : run step s₀ es = some s) (hI : I s) :
    ∃ es₁ e es₂ s₁, es = es₁ ++ e :: es₂ ∧ A e ∧ run step s₀ (es₁ ++ [e]) = some s₁ ∧
      run step s₁ es₂ = some s ∧ Throughout step I s₁ es₂ := by
  induction es using List.reverseRecOn generalizing s with
  | nil =>
      cases hrun
      exact absurd hI hstart
  | append_singleton es e ih =>
      obtain ⟨s₂, hrun₂, hlast⟩ := run_append_eq_some hrun
      have hs : step s₂ e = some s := by simpa using hlast
      by_cases hA : A e
      · refine ⟨es, e, [], s, rfl, hA, hrun, rfl, fun fs hfs s' hs' => ?_⟩
        rw [List.prefix_nil.mp hfs] at hs'
        cases hs'
        exact hI
      · obtain ⟨es₁, e₁, es₂, s₁, rfl, hA₁, hrun₁, hmid, hthrough⟩ :=
          ih hrun₂ (hstep s₂ e s hs hI hA)
        refine ⟨es₁, e₁, es₂ ++ [e], s₁, by simp, hA₁, hrun₁, ?_,
          throughout_concat hthrough hmid hs hI⟩
        rw [run_append, hmid, Option.bind_some, hlast]

/-- Let `K` hold of every state of the run.  If a step from a state with the
invariant `I` keeps it exactly when the step meets `C`, then the invariant
holds throughout a run exactly when every step of the run meets `C`. -/
theorem throughout_iff_stepsMeet {step : σ → ε → Option σ} {C : σ → ε → Prop}
    {K I : σ → Prop}
    (hK : ∀ s e s', K s → step s e = some s' → K s')
    (hstep : ∀ s e s', K s → I s → step s e = some s' → (I s' ↔ C s e))
    {s : σ} (hKs : K s) (hI : I s) (es : List ε) :
    Throughout step I s es ↔ StepsMeet step C s es := by
  induction es generalizing s with
  | nil =>
      refine ⟨fun _ => trivial, ?_⟩
      intro _ fs hfs s' hrun
      rw [List.prefix_nil.mp hfs] at hrun
      cases hrun
      exact hI
  | cons e es ih =>
      rw [throughout_cons, stepsMeet_cons]
      constructor
      · rintro ⟨_, hrest⟩ s' hs'
        have hI' : I s' := hrest s' hs' [] List.nil_prefix s' rfl
        exact ⟨(hstep s e s' hKs hI hs').mp hI', (ih (hK s e s' hKs hs') hI').mp (hrest s' hs')⟩
      · intro h
        refine ⟨hI, fun s' hs' => ?_⟩
        have hI' : I s' := (hstep s e s' hKs hI hs').mpr (h s' hs').1
        exact (ih (hK s e s' hKs hs') hI').mpr (h s' hs').2

end EceLib.Support
