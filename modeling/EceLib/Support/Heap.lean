import Mathlib.Logic.Function.Basic
import Mathlib.Data.Nat.Notation
import Mathlib.Tactic.ByContra

/-!
# A heap of objects

Objects of one type, each at an address.  An address is given out once: what is
read, written or freed after it has been freed is not there, so that a
computation that comes to its end has neither used an object that was gone nor
freed one twice.
-/

namespace EceLib.Support

/-- The objects that are there, all below `top`. -/
structure Heap (α : Type) where
  cell : ℕ → Option α
  top : ℕ
  cell_of_top_le : ∀ a, top ≤ a → cell a = none

namespace Heap

variable {α : Type}

def empty : Heap α where
  cell := fun _ => none
  top := 0
  cell_of_top_le := fun _ _ => rfl

def read (h : Heap α) (a : ℕ) : Option α := h.cell a

/-- A new object at an address that was never used. -/
def alloc (h : Heap α) (x : α) : ℕ × Heap α :=
  (h.top,
    { cell := Function.update h.cell h.top (some x)
      top := h.top + 1
      cell_of_top_le := fun a ha => by
        rw [Function.update_of_ne (Nat.ne_of_gt ha)]
        exact h.cell_of_top_le a (Nat.le_of_succ_le ha) })

/-- What is at an address in use is exchanged. -/
def set (h : Heap α) (a : ℕ) (x : Option α) (ha : (h.read a).isSome) : Heap α where
  cell := Function.update h.cell a x
  top := h.top
  cell_of_top_le := fun b hb => by
    have hne : b ≠ a := by
      rintro rfl
      rw [read, h.cell_of_top_le b hb] at ha
      cases ha
    rw [Function.update_of_ne hne]
    exact h.cell_of_top_le b hb

def write (h : Heap α) (a : ℕ) (x : α) : Option (Heap α) :=
  if ha : (h.read a).isSome then some (h.set a (some x) ha) else none

def free (h : Heap α) (a : ℕ) : Option (Heap α) :=
  if ha : (h.read a).isSome then some (h.set a none ha) else none

/-! ## What is there afterwards -/

@[simp] theorem read_empty (a : ℕ) : (empty : Heap α).read a = none := rfl

theorem lt_top {h : Heap α} {a : ℕ} (ha : (h.read a).isSome) : a < h.top := by
  by_contra hle
  rw [read, h.cell_of_top_le a (Nat.le_of_not_lt hle)] at ha
  cases ha

@[simp] theorem alloc_fst (h : Heap α) (x : α) : (h.alloc x).1 = h.top := rfl

@[simp] theorem top_alloc (h : Heap α) (x : α) : (h.alloc x).2.top = h.top + 1 := rfl

theorem read_alloc (h : Heap α) (x : α) (a : ℕ) :
    (h.alloc x).2.read a = if a = h.top then some x else h.read a :=
  Function.update_apply h.cell h.top (some x) a

theorem read_set (h : Heap α) {a : ℕ} (x : Option α) (ha : (h.read a).isSome) (b : ℕ) :
    (h.set a x ha).read b = if b = a then x else h.read b :=
  Function.update_apply h.cell a x b

@[simp] theorem top_set (h : Heap α) {a : ℕ} (x : Option α) (ha : (h.read a).isSome) :
    (h.set a x ha).top = h.top := rfl

theorem write_of_isSome {h : Heap α} {a : ℕ} (x : α) (ha : (h.read a).isSome) :
    h.write a x = some (h.set a (some x) ha) := dif_pos ha

theorem free_of_isSome {h : Heap α} {a : ℕ} (ha : (h.read a).isSome) :
    h.free a = some (h.set a none ha) := dif_pos ha

/-- Of what is freed nothing is left, and everything else stays. -/
theorem read_of_free {h h' : Heap α} {a : ℕ} (hfree : h.free a = some h') (b : ℕ) :
    h'.read b = if b = a then none else h.read b := by
  unfold free at hfree
  split at hfree
  · rename_i ha
    obtain rfl := Option.some.inj hfree
    exact h.read_set none ha b
  · cases hfree

end Heap

end EceLib.Support
