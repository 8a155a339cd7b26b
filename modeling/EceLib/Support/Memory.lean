import Mathlib.Data.List.Basic

/-!
# Buffers, accesses and computations that record them

A pointer argument of a C function is a `Buf`: the bytes found from the pointer
on, and how many of them belong to the object the caller vouches for.  Bytes
past the object are whatever memory holds there; they can be read, but the
access is recorded with the size of the object, so that a reader can ask
whether it stayed inside.

`Traced` is the type of computations that record their accesses and may stop
because what they would do next is undefined.  The record survives a stop.
-/

namespace EceLib.Support

/-- The memory a pointer points to: its bytes, and the size of the object. -/
structure Buf where
  mem : ℕ → UInt8
  size : ℕ

namespace Buf

/-- The pointer `n` bytes further on, into the same object. -/
def drop (b : Buf) (n : ℕ) : Buf where
  mem := fun i => b.mem (n + i)
  size := b.size - n

/-- The pointer taken for one to an object of `n` bytes, such as a field. -/
def field (b : Buf) (n : ℕ) : Buf where
  mem := b.mem
  size := n

/-- The `len` bytes from offset `off` on. -/
def bytes (b : Buf) (off len : ℕ) : List UInt8 :=
  (List.range len).map fun i => b.mem (off + i)

/-- An object holding exactly the given bytes. -/
def ofBytes (l : List UInt8) : Buf where
  mem := fun i => l.getD i 0
  size := l.length

@[simp] theorem drop_mem (b : Buf) (n i : ℕ) : (b.drop n).mem i = b.mem (n + i) := rfl

@[simp] theorem drop_size (b : Buf) (n : ℕ) : (b.drop n).size = b.size - n := rfl

@[simp] theorem field_mem (b : Buf) (n i : ℕ) : (b.field n).mem i = b.mem i := rfl

@[simp] theorem field_size (b : Buf) (n : ℕ) : (b.field n).size = n := rfl

@[simp] theorem ofBytes_size (l : List UInt8) : (ofBytes l).size = l.length := rfl

@[simp] theorem length_bytes (b : Buf) (off len : ℕ) : (b.bytes off len).length = len := by
  simp [bytes]

theorem bytes_drop (b : Buf) (n off len : ℕ) :
    (b.drop n).bytes off len = b.bytes (n + off) len := by
  simp [bytes, Nat.add_assoc]

/-- Two pointers that agree on a range read the same bytes from it. -/
theorem bytes_congr {b c : Buf} {m n len : ℕ}
    (h : ∀ i < len, b.mem (m + i) = c.mem (n + i)) :
    b.bytes m len = c.bytes n len := by
  apply List.map_congr_left
  intro i hi
  exact h i (List.mem_range.mp hi)

/-- Past the first part of an object laid out in two parts lies the second. -/
theorem ofBytes_append_mem (l r : List UInt8) (i : ℕ) :
    (ofBytes (l ++ r)).mem (l.length + i) = (ofBytes r).mem i := by
  simp [ofBytes, List.getD_eq_getElem?_getD, List.getElem?_append_right]

theorem ofBytes_append_mem_left (l r : List UInt8) {i : ℕ} (hi : i < l.length) :
    (ofBytes (l ++ r)).mem i = (ofBytes l).mem i := by
  simp [ofBytes, List.getD_eq_getElem?_getD, List.getElem?_append_left hi]

/-- The pointer to the second part of such an object. -/
theorem ofBytes_append_drop (l r : List UInt8) : (ofBytes (l ++ r)).drop l.length = ofBytes r := by
  have hmem : (fun i => (ofBytes (l ++ r)).mem (l.length + i)) = (ofBytes r).mem := by
    funext i
    exact ofBytes_append_mem l r i
  rw [drop, hmem]
  simp [ofBytes]

/-- Reading an object from its start gives back its bytes. -/
theorem ofBytes_bytes (l : List UInt8) : (ofBytes l).bytes 0 l.length = l := by
  apply List.ext_getElem
  · simp
  · intro i hi hl
    simp [bytes, ofBytes, hl]

/-- Reading the first part of an object gives back the bytes of that part. -/
theorem bytes_append_left (l r : List UInt8) : (ofBytes (l ++ r)).bytes 0 l.length = l := by
  have hsame : (ofBytes (l ++ r)).bytes 0 l.length = (ofBytes l).bytes 0 l.length := by
    apply bytes_congr
    intro i hi
    rw [Nat.zero_add, ofBytes_append_mem_left l r hi]
  rw [hsame, ofBytes_bytes]

/-- What was read from a pointer is found again in a copy. -/
theorem ofBytes_bytes_append_mem (b : Buf) {n i : ℕ} (h : i < n) (r : List UInt8) :
    (ofBytes (b.bytes 0 n ++ r)).mem i = b.mem i := by
  rw [ofBytes_append_mem_left _ _ (by simpa using h)]
  simp [ofBytes, bytes, h]

end Buf

/-- Overwrite `dst` with `src` from offset `off` on; what would land past the
end of `dst` is dropped. -/
def overwrite (dst : List UInt8) (off : ℕ) (src : List UInt8) : List UInt8 :=
  dst.take off ++ src.take (dst.length - off) ++ dst.drop (off + src.length)

/-- A field in the middle is written, in full or up to a rest. -/
theorem overwrite_append {l field r src : List UInt8} (h : src.length ≤ field.length) :
    overwrite (l ++ (field ++ r)) l.length src = l ++ (src ++ (field.drop src.length ++ r)) := by
  have hsrc : src.take ((l ++ (field ++ r)).length - l.length) = src := by
    apply List.take_of_length_le
    simp
    omega
  rw [overwrite, hsrc, List.take_left, ← List.drop_drop, List.drop_left,
    List.drop_append_of_le_length h, List.append_assoc]

/-- The bytes behind a first part are overwritten as the second part is. -/
theorem overwrite_append_right (l r : List UInt8) (off : ℕ) (src : List UInt8) :
    overwrite (l ++ r) (l.length + off) src = l ++ overwrite r off src := by
  have hlen : (l ++ r).length - (l.length + off) = r.length - off := by
    rw [List.length_append]
    omega
  rw [overwrite, overwrite, hlen, List.take_length_add_append, Nat.add_assoc,
    List.drop_length_add_append]
  simp only [List.append_assoc]

@[simp] theorem length_overwrite (dst : List UInt8) (off : ℕ) (src : List UInt8) :
    (overwrite dst off src).length = dst.length := by
  simp only [overwrite, List.length_append, List.length_take, List.length_drop]
  omega

/-- What was written to the start is there. -/
theorem take_overwrite {dst src : List UInt8} (h : src.length ≤ dst.length) :
    (overwrite dst 0 src).take src.length = src := by
  have hsrc : src.take dst.length = src := List.take_of_length_le h
  simp [overwrite, hsrc]

/-- What is found after a write: the bytes written, or what was there. -/
theorem getElem?_overwrite {dst src : List UInt8} {off i : ℕ} (h : off ≤ dst.length)
    (hi : i < dst.length) :
    (overwrite dst off src)[i]? =
      if off ≤ i ∧ i < off + src.length then src[i - off]? else dst[i]? := by
  simp only [overwrite, List.getElem?_append, List.length_append, List.length_take,
    List.getElem?_take, List.getElem?_drop]
  grind

/-- The start of zeroed memory is written. -/
theorem overwrite_replicate {n : ℕ} {src : List UInt8} (h : src.length ≤ n) :
    overwrite (List.replicate n 0) 0 src = src ++ List.replicate (n - src.length) 0 := by
  have hsplit : List.replicate n (0 : UInt8) =
      [] ++ (List.replicate src.length 0 ++ List.replicate (n - src.length) 0) := by
    rw [List.nil_append, List.replicate_append_replicate, Nat.add_sub_cancel' h]
  have hlen : src.length ≤ (List.replicate src.length (0 : UInt8)).length := by simp
  have hwrite := overwrite_append (l := []) (r := List.replicate (n - src.length) 0) hlen
  rw [List.length_nil] at hwrite
  rw [hsplit, hwrite]
  simp

/-- What is found in zeroed memory after a write to its start. -/
theorem getElem?_overwrite_replicate {n i : ℕ} (src : List UInt8) (hi : i < n) :
    (overwrite (List.replicate n 0) 0 src)[i]? = some (src[i]?.getD 0) := by
  rw [getElem?_overwrite (Nat.zero_le _) (by simpa using hi)]
  by_cases hlen : i < src.length
  · simp [hlen]
  · simp [hlen, hi]

/-- What was written to the start of an object is read from it. -/
theorem Buf.ofBytes_overwrite_mem {dst src : List UInt8} (i : ℕ) (hi : i < src.length)
    (hlen : i < dst.length) : (ofBytes (overwrite dst 0 src)).mem i = (ofBytes src).mem i := by
  have hget : (overwrite dst 0 src)[i]? = src[i]? := by
    rw [getElem?_overwrite (Nat.zero_le _) hlen, if_pos ⟨Nat.zero_le i, by omega⟩, Nat.sub_zero]
  change (overwrite dst 0 src).getD i 0 = src.getD i 0
  rw [List.getD_eq_getElem?_getD, List.getD_eq_getElem?_getD, hget]

/-- A write leaves alone what lies in front of it. -/
theorem take_overwrite_of_le (dst src : List UInt8) {off k : ℕ} (h : k ≤ off) :
    (overwrite dst off src).take k = dst.take k := by
  rw [overwrite, List.append_assoc]
  by_cases hoff : off ≤ dst.length
  · rw [List.take_append_of_le_length (by rw [List.length_take]; omega), List.take_take,
      Nat.min_eq_left h]
  · have hlen : dst.length ≤ off := by omega
    rw [List.take_of_length_le hlen, Nat.sub_eq_zero_of_le hlen, List.take_zero, List.nil_append,
      List.drop_eq_nil_of_le (by omega), List.append_nil]

/-- Behind the start of a write lies what is written to the rest. -/
theorem drop_overwrite {dst : List UInt8} {off : ℕ} (h : off ≤ dst.length) (src : List UInt8) :
    (overwrite dst off src).drop off = overwrite (dst.drop off) 0 src := by
  have hlen : (dst.take off).length = off := by rw [List.length_take, Nat.min_eq_left h]
  have hwrite := overwrite_append_right (dst.take off) (dst.drop off) 0 src
  rw [List.take_append_drop, hlen, Nat.add_zero] at hwrite
  rw [hwrite]
  exact List.drop_left' hlen

/-- A write to the start leaves alone what lies behind it. -/
theorem drop_overwrite_of_le {dst src : List UInt8} {k : ℕ} (h : src.length ≤ k) :
    (overwrite dst 0 src).drop k = dst.drop k := by
  rw [overwrite, List.take_zero, List.nil_append, Nat.sub_zero, Nat.zero_add, List.drop_append,
    List.drop_eq_nil_of_le (by rw [List.length_take]; omega), List.nil_append, List.drop_drop]
  rcases Nat.le_total src.length dst.length with hlen | hlen
  · rw [List.length_take, Nat.min_eq_right hlen, Nat.add_sub_cancel' h]
  · rw [List.drop_eq_nil_of_le (by omega), List.drop_eq_nil_of_le (by omega)]

/-! ## Objects of a fixed size -/

/-- An object of `n` bytes. -/
@[ext] structure Block (n : ℕ) where
  bytes : List UInt8
  length_bytes : bytes.length = n

instance (n : ℕ) : DecidableEq (Block n) := fun _ _ => decidable_of_iff _ Block.ext_iff.symm

namespace Block

variable {n : ℕ}

/-- The first bytes of an object. -/
def front (b : Block n) (k : ℕ) : List UInt8 := b.bytes.take k

/-- Copy `src` to offset `off`. -/
def write (b : Block n) (off : ℕ) (src : List UInt8) : Block n where
  bytes := overwrite b.bytes off src
  length_bytes := by rw [length_overwrite, b.length_bytes]

theorem front_write {b : Block n} {src : List UInt8} (h : src.length ≤ n) :
    (b.write 0 src).front src.length = src :=
  take_overwrite (by rwa [b.length_bytes])

theorem front_write_of_le (b : Block n) (src : List UInt8) {off k : ℕ} (h : k ≤ off) :
    (b.write off src).front k = b.front k :=
  take_overwrite_of_le _ _ h

/-! ### Objects that are written where they differ -/

/-- Write to an object, unless its first bytes are those that are written. -/
def update (write : Block n → List UInt8 → Block n) (b : Block n) (data : List UInt8) : Block n :=
  if b.front data.length = data then b else write b data

/-- The last of a sequence of writes that differs from what is there. -/
def lastChange (write : Block n → List UInt8 → Block n) (b : Block n) :
    List (List UInt8) → Option (List UInt8)
  | [] => none
  | data :: next =>
      (lastChange write (b.update write data) next).or
        (if b.front data.length = data then none else some data)

variable {write : Block n → List UInt8 → Block n}

theorem update_of_front_eq {b : Block n} {data : List UInt8} (h : b.front data.length = data) :
    b.update write data = b := if_pos h

theorem update_of_front_ne {b : Block n} {data : List UInt8} (h : b.front data.length ≠ data) :
    b.update write data = write b data := if_neg h

/-- After any writes a text that each write renews is the one of the last write
that differed. -/
theorem text_foldl_update {γ : Type} {text : Block n → γ} {render : List UInt8 → γ}
    (hrender : ∀ b data, text (write b data) = render data) (writes : List (List UInt8))
    (b : Block n) : text (writes.foldl (update write) b) =
      ((b.lastChange write writes).map render).getD (text b) := by
  induction writes generalizing b with
  | nil => rfl
  | cons data next ih =>
      rw [List.foldl_cons, ih, lastChange]
      cases lastChange write (b.update write data) next with
      | some last => rfl
      | none =>
          by_cases h : b.front data.length = data
          · simp [update, h]
          · simp [update, h, hrender]

/-- Nothing changes precisely when everything that is written is there already. -/
theorem lastChange_eq_none_iff {b : Block n} {writes : List (List UInt8)} :
    b.lastChange write writes = none ↔ ∀ data ∈ writes, b.front data.length = data := by
  induction writes generalizing b with
  | nil => simp [lastChange]
  | cons data next ih =>
      rw [lastChange, Option.or_eq_none_iff, List.forall_mem_cons]
      by_cases h : b.front data.length = data
      · rw [update_of_front_eq h, ih, if_pos h]
        simp [h]
      · simp [h]

theorem lastChange_singleton (b : Block n) (data : List UInt8) :
    b.lastChange write [data] = if b.front data.length = data then none else some data := rfl

end Block

/-! ## Accesses -/

/-- An access to the buffer called `buf`: `len` bytes from `off` on, in an
object of `size` bytes. -/
structure Access (β : Type) where
  buf : β
  off : ℕ
  len : ℕ
  size : ℕ
deriving DecidableEq

/-- The access stays inside its object. -/
def Access.InBounds {β : Type} (a : Access β) : Prop := a.off + a.len ≤ a.size

instance {β : Type} (a : Access β) : Decidable a.InBounds :=
  inferInstanceAs (Decidable (a.off + a.len ≤ a.size))

/-- Every byte of a range lies in front of the end; a range of no bytes has none. -/
theorem forall_byte_iff {off len size : ℕ} :
    (∀ i < len, off + i < size) ↔ (len ≠ 0 → off + len ≤ size) := by
  constructor
  · intro h hlen
    have hlast := h (len - 1) (by omega)
    omega
  · intro h i hi
    have hle := h (by omega)
    omega

/-- A computation with the accesses it made; no value means that it ran into
undefined behaviour after them. -/
structure Traced (β α : Type) where
  acc : List (Access β)
  val : Option α

namespace Traced

variable {β α γ : Type}

/-- Continue with `f` unless the first part stopped. -/
def andThen (x : Traced β α) (f : α → Traced β γ) : Traced β γ :=
  match x.val with
  | none => ⟨x.acc, none⟩
  | some a => ⟨x.acc ++ (f a).acc, (f a).val⟩

instance : Monad (Traced β) where
  pure a := ⟨[], some a⟩
  bind := andThen

/-- Record an access. -/
def touch (a : Access β) : Traced β Unit := ⟨[a], some ()⟩

/-- Record an access, and stop if it leaves its object: what follows would work
on memory the model no longer describes. -/
def require (a : Access β) : Traced β Unit := ⟨[a], if a.InBounds then some () else none⟩

/-- Stop: the code goes on through memory that is not there. -/
def stop : Traced β α := ⟨[], none⟩

/-- A computation without accesses. -/
def lift (a : Option α) : Traced β α := ⟨[], a⟩

/-- Every recorded access has the property `P`. -/
def Each (P : Access β → Prop) (x : Traced β α) : Prop := ∀ a ∈ x.acc, P a

@[simp] theorem val_pure (a : α) : (pure a : Traced β α).val = some a := rfl

@[simp] theorem acc_pure (a : α) : (pure a : Traced β α).acc = [] := rfl

@[simp] theorem val_touch (a : Access β) : (touch a).val = some () := rfl

@[simp] theorem acc_touch (a : Access β) : (touch a).acc = [a] := rfl

@[simp] theorem acc_require (a : Access β) : (require a).acc = [a] := rfl

theorem val_require (a : Access β) :
    (require a).val = if a.InBounds then some () else none := rfl

@[simp] theorem val_stop : (stop : Traced β α).val = none := rfl

@[simp] theorem acc_stop : (stop : Traced β α).acc = [] := rfl

@[simp] theorem val_lift (a : Option α) : (lift a : Traced β α).val = a := rfl

@[simp] theorem acc_lift (a : Option α) : (lift a : Traced β α).acc = [] := rfl

@[simp] theorem val_bind (x : Traced β α) (f : α → Traced β γ) :
    (x >>= f).val = x.val.bind fun a => (f a).val := by
  change (andThen x f).val = _
  cases h : x.val <;> simp [andThen, h]

theorem acc_bind_of_val {x : Traced β α} {a : α} (h : x.val = some a)
    (f : α → Traced β γ) : (x >>= f).acc = x.acc ++ (f a).acc := by
  change (andThen x f).acc = _
  simp [andThen, h]

theorem acc_bind_of_none {x : Traced β α} (h : x.val = none)
    (f : α → Traced β γ) : (x >>= f).acc = x.acc := by
  change (andThen x f).acc = _
  simp [andThen, h]

@[simp] theorem acc_touch_bind (a : Access β) (f : Unit → Traced β γ) :
    (touch a >>= f).acc = a :: (f ()).acc := rfl

@[simp] theorem acc_pure_bind (a : α) (f : α → Traced β γ) :
    ((pure a : Traced β α) >>= f).acc = (f a).acc := rfl

/-! ## Properties of all accesses -/

section Each

variable {P : Access β → Prop}

@[simp] theorem each_pure (a : α) : (pure a : Traced β α).Each P := by simp [Each]

@[simp] theorem each_stop : (stop : Traced β α).Each P := by simp [Each]

@[simp] theorem each_lift (a : Option α) : (lift a : Traced β α).Each P := by simp [Each]

@[simp] theorem each_touch {a : Access β} : (touch a).Each P ↔ P a := by simp [Each]

@[simp] theorem each_require {a : Access β} : (require a).Each P ↔ P a := by simp [Each]

/-- The accesses of a sequence are those of its first part, and those of the
second if the first has a result. -/
theorem each_bind {x : Traced β α} {f : α → Traced β γ} :
    (x >>= f).Each P ↔ x.Each P ∧ ∀ a, x.val = some a → (f a).Each P := by
  cases hval : x.val with
  | none => simp [Each, acc_bind_of_none hval]
  | some a => simp [Each, acc_bind_of_val hval, or_imp, forall_and]

theorem each_touch_bind {a : Access β} {f : Unit → Traced β γ} :
    (touch a >>= f).Each P ↔ P a ∧ (f ()).Each P := by
  rw [each_bind, each_touch]
  exact and_congr_right fun _ => ⟨fun h => h () rfl, fun h _ _ => h⟩

theorem each_require_bind {a : Access β} {f : Unit → Traced β γ} :
    (require a >>= f).Each P ↔ P a ∧ (a.InBounds → (f ()).Each P) := by
  rw [each_bind, each_require, val_require]
  refine and_congr_right fun _ => ⟨fun h ha => h () (if_pos ha), fun h _ ha => ?_⟩
  by_cases hbounds : a.InBounds
  · exact h hbounds
  · rw [if_neg hbounds] at ha
    cases ha

end Each

end Traced

end EceLib.Support
