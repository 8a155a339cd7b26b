import Mathlib.Data.List.Basic

/-!
# Stages that let elements pass

A stage keeps a state, sees one element after the other and lets each pass or
keeps it back.  Stages stand in a row: an element goes through them in order,
and those behind the stage that keeps it back never see it.  What comes out of
a row at the end is what the stages let pass one after the other.
-/

namespace EceLib.Support

variable {σ α : Type*}

/-- The stage after an element, and whether the element passes. -/
abbrev Stage (σ α : Type*) := σ → α → σ × Bool

/-! ## A stage by itself -/

/-- The state of a stage after the elements. -/
def Stage.after (step : Stage σ α) : σ → List α → σ
  | s, [] => s
  | s, a :: as => Stage.after step (step s a).1 as

/-- The elements that pass. -/
def Stage.passed (step : Stage σ α) : σ → List α → List α
  | _, [] => []
  | s, a :: as =>
    if (step s a).2 then a :: Stage.passed step (step s a).1 as
    else Stage.passed step (step s a).1 as

/-- The elements that are chosen by what stands before them. -/
def keepWhere (keep : List α → α → Bool) : List α → List α → List α
  | _, [] => []
  | pre, a :: as =>
    if keep pre a then a :: keepWhere keep (pre ++ [a]) as else keepWhere keep (pre ++ [a]) as

/-! ## Stages in a row -/

/-- One element goes through the stages. -/
def feed (step : Stage σ α) : List σ → α → List σ × Bool
  | [], _ => ([], true)
  | s :: stages, a =>
    if (step s a).2 then ((step s a).1 :: (feed step stages a).1, (feed step stages a).2)
    else ((step s a).1 :: stages, false)

/-- The elements go through the stages one by one. -/
def feedAll (step : Stage σ α) : List σ → List α → List σ × List α
  | stages, [] => (stages, [])
  | stages, a :: as =>
    let rest := feedAll step (feed step stages a).1 as
    (rest.1, if (feed step stages a).2 then a :: rest.2 else rest.2)

/-! ## A row is the composition of its stages -/

variable (step : Stage σ α)

theorem Stage.after_append (s : σ) (as bs : List α) :
    Stage.after step s (as ++ bs) = Stage.after step (Stage.after step s as) bs := by
  induction as generalizing s with
  | nil => rfl
  | cons a as ih => exact ih _

theorem feedAll_nil_stages (as : List α) : feedAll step [] as = ([], as) := by
  induction as with
  | nil => rfl
  | cons a as ih => simp [feedAll, feed, ih]

/-- The first stage works alone, and the others see what it lets pass. -/
theorem feedAll_cons_stages (s : σ) (stages : List σ) (as : List α) :
    feedAll step (s :: stages) as =
      (Stage.after step s as :: (feedAll step stages (Stage.passed step s as)).1,
        (feedAll step stages (Stage.passed step s as)).2) := by
  induction as generalizing s stages with
  | nil => rfl
  | cons a as ih =>
      by_cases hpass : (step s a).2 = true
      · simp [feedAll, feed, Stage.after, Stage.passed, hpass, ih]
      · simp [feedAll, feed, Stage.after, Stage.passed, hpass, ih]

theorem feedAll_append (stages : List σ) (as bs : List α) :
    feedAll step stages (as ++ bs) =
      ((feedAll step (feedAll step stages as).1 bs).1,
        (feedAll step stages as).2 ++ (feedAll step (feedAll step stages as).1 bs).2) := by
  induction as generalizing stages with
  | nil => rfl
  | cons a as ih =>
      simp only [List.cons_append, feedAll, ih]
      split <;> rfl

/-- A stage that keeps a condition of its state decides each element by itself. -/
theorem Stage.passed_eq_filter {P : σ → Prop} {keep : α → Bool}
    (hstep : ∀ s a, P s → P (step s a).1 ∧ (step s a).2 = keep a) {s : σ} (hs : P s)
    (as : List α) : Stage.passed step s as = as.filter keep := by
  induction as generalizing s with
  | nil => rfl
  | cons a as ih =>
      obtain ⟨hnext, hkeep⟩ := hstep s a hs
      rw [Stage.passed, hkeep, List.filter_cons, ih hnext]

/-- What a stage lets pass is chosen by the state in which it sees it. -/
theorem Stage.passed_eq_keepWhere {keep : List α → α → Bool} (s₀ : σ)
    (hstep : ∀ pre a, (step (Stage.after step s₀ pre) a).2 = keep pre a) (pre as : List α) :
    Stage.passed step (Stage.after step s₀ pre) as = keepWhere keep pre as := by
  induction as generalizing pre with
  | nil => rfl
  | cons a as ih =>
      have hnext : (step (Stage.after step s₀ pre) a).1 = Stage.after step s₀ (pre ++ [a]) :=
        (Stage.after_append step s₀ pre [a]).symm
      rw [Stage.passed, keepWhere, hstep, hnext, ih]

end EceLib.Support
