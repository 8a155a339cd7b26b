import Mathlib.Data.List.DropRight
import Mathlib.Logic.Function.Iterate

/-!
# A text with a cursor

The elements in front of the cursor and those behind it, and how each
operation of an editor changes them.
-/

namespace EceLib.Support

variable {α : Type*}

/-- The elements in front of the cursor and behind it, both in their order. -/
structure Zipper (α : Type*) where
  before : List α
  after : List α
deriving DecidableEq

namespace Zipper

def text (z : Zipper α) : List α := z.before ++ z.after

/-- A text with the cursor at its end. -/
def ofText (t : List α) : Zipper α := ⟨t, []⟩

def insert (z : Zipper α) (a : α) : Zipper α := ⟨z.before ++ [a], z.after⟩

/-- The element in front of the cursor is removed. -/
def back (z : Zipper α) : Zipper α := ⟨z.before.dropLast, z.after⟩

def left (z : Zipper α) : Zipper α := ⟨z.before.dropLast, z.before.getLast?.toList ++ z.after⟩

def right (z : Zipper α) : Zipper α := ⟨z.before ++ z.after.head?.toList, z.after.tail⟩

def home (z : Zipper α) : Zipper α := ⟨[], z.text⟩

def toEnd (z : Zipper α) : Zipper α := ⟨z.text, []⟩

/-- What stands behind the cursor is removed. -/
def kill (z : Zipper α) : Zipper α := ⟨z.before, []⟩

/-! ## Moving does not change the text -/

@[simp] theorem text_ofText (t : List α) : (ofText t).text = t := List.append_nil t

@[simp] theorem text_left (z : Zipper α) : z.left.text = z.text := by
  obtain ⟨before, after⟩ := z
  rcases List.eq_nil_or_concat before with rfl | ⟨before, a, rfl⟩
  · rfl
  · simp [left, text]

@[simp] theorem text_right (z : Zipper α) : z.right.text = z.text := by
  obtain ⟨before, after⟩ := z
  cases after with
  | nil => simp [right, text]
  | cons a after => simp [right, text]

@[simp] theorem text_home (z : Zipper α) : z.home.text = z.text := rfl

@[simp] theorem text_toEnd (z : Zipper α) : z.toEnd.text = z.text := List.append_nil _

/-! ## Moving stops at the ends -/

theorem left_of_nil {z : Zipper α} (h : z.before = []) : z.left = z := by
  obtain ⟨before, after⟩ := z
  rw [show before = [] from h]
  rfl

theorem right_of_nil {z : Zipper α} (h : z.after = []) : z.right = z := by
  obtain ⟨before, after⟩ := z
  rw [show after = [] from h]
  simp [right]

theorem home_of_nil {z : Zipper α} (h : z.before = []) : z.home = z := by
  obtain ⟨before, after⟩ := z
  rw [show before = [] from h]
  rfl

theorem toEnd_of_nil {z : Zipper α} (h : z.after = []) : z.toEnd = z := by
  obtain ⟨before, after⟩ := z
  rw [show after = [] from h]
  simp [toEnd, text]

/-! ## What the other operations do to it -/

theorem text_insert (z : Zipper α) (a : α) : (z.insert a).text = z.before ++ a :: z.after := by
  simp [insert, text]

theorem length_text (z : Zipper α) : z.text.length = z.before.length + z.after.length :=
  List.length_append

/-- Removing `n` elements, one after the other. -/
theorem iterate_back (z : Zipper α) (n : ℕ) :
    back^[n] z = ⟨z.before.take (z.before.length - n), z.after⟩ := by
  induction n with
  | zero => simp
  | succ n ih =>
      rw [Function.iterate_succ_apply', ih]
      simp only [back, List.dropLast_eq_take, List.take_take, List.length_take, mk.injEq, and_true]
      congr 1
      omega

end Zipper

end EceLib.Support
