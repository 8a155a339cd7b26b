import EceLib.Support.Memory

/-!
# Texts in character arrays

A text ends at the first zero byte of its array, and appending to it in place
writes the whole text again, with what comes behind it and a terminator.  The
main result is about any number of appends: they stay inside the array exactly
if the last text with its terminator does.
-/

namespace EceLib.Support

variable {β : Type}

/-- The text in an array. -/
def textOf (mem : List UInt8) : List UInt8 := mem.takeWhile (· ≠ 0)

/-- `memset(mem, 0, n)`. -/
def clearFront (mem : List UInt8) (n : ℕ) : List UInt8 := overwrite mem 0 (List.replicate n 0)

/-- `sprintf(mem, "%s...", mem, ...)`. -/
def appendText (buf : β) (mem tail : List UInt8) : Traced β (List UInt8) := do
  Traced.require ⟨buf, 0, (textOf mem).length + tail.length + 1, mem.length⟩
  pure (overwrite mem 0 (textOf mem ++ tail ++ [0]))

/-- Append one piece after the other. -/
def appendTexts (buf : β) : List UInt8 → List (List UInt8) → Traced β (List UInt8)
  | mem, [] => pure mem
  | mem, tail :: next => do
      let mem ← appendText buf mem tail
      appendTexts buf mem next

theorem textOf_append_zero {text : List UInt8} (htext : ∀ c ∈ text, c ≠ 0) (rest : List UInt8) :
    textOf (text ++ [0] ++ rest) = text := by
  have hall : ∀ c ∈ text, (decide (c ≠ 0)) = true := fun c hc => decide_eq_true (htext c hc)
  rw [textOf, List.append_assoc, List.takeWhile_append_of_pos hall]
  simp

theorem ne_zero_of_mem_textOf {mem : List UInt8} {c : UInt8} (hc : c ∈ textOf mem) : c ≠ 0 :=
  of_decide_eq_true (List.all_eq_true.mp List.all_takeWhile c hc)

/-- Where a text and its terminator have been written, the text is found,
whatever comes behind the array. -/
theorem textOf_overwrite_append {mem text : List UInt8} (htext : ∀ c ∈ text, c ≠ 0)
    (hlen : text.length + 1 ≤ mem.length) (rest : List UInt8) :
    textOf (overwrite mem 0 (text ++ [0]) ++ rest) = text := by
  have htake : (text ++ [0]).take (mem.length - 0) = text ++ [0] := by
    apply List.take_of_length_le
    simpa using hlen
  rw [overwrite, List.take_zero, List.nil_append, htake, List.append_assoc,
    textOf_append_zero htext]

theorem textOf_overwrite {mem text : List UInt8} (htext : ∀ c ∈ text, c ≠ 0)
    (hlen : text.length + 1 ≤ mem.length) :
    textOf (overwrite mem 0 (text ++ [0])) = text := by
  rw [← List.append_nil (overwrite mem 0 (text ++ [0]))]
  exact textOf_overwrite_append htext hlen []

/-- It is enough to clear the first byte. -/
theorem textOf_clearFront {mem : List UInt8} {n : ℕ} (hn : 0 < n) (hmem : 0 < mem.length) :
    textOf (clearFront mem n) = [] := by
  cases n with
  | zero => omega
  | succ n =>
      cases mem with
      | nil => simp at hmem
      | cons c mem => simp [textOf, clearFront, overwrite, List.replicate_succ]

/-- One append. -/
theorem val_appendText (buf : β) {mem tail : List UInt8} (htail : ∀ c ∈ tail, c ≠ 0)
    (hlen : (textOf mem).length + tail.length + 1 ≤ mem.length) :
    ∃ mem', (appendText buf mem tail).val = some mem' ∧ mem'.length = mem.length ∧
      textOf mem' = textOf mem ++ tail := by
  refine ⟨overwrite mem 0 (textOf mem ++ tail ++ [0]), ?_, length_overwrite _ _ _, ?_⟩
  · simp [appendText, Traced.val_require, Access.InBounds, hlen]
  · apply textOf_overwrite
    · intro c hc
      rcases List.mem_append.mp hc with hc | hc
      · exact ne_zero_of_mem_textOf hc
      · exact htail c hc
    · rw [List.length_append]
      exact hlen

theorem each_appendText (buf : β) (mem tail : List UInt8) :
    (appendText buf mem tail).Each Access.InBounds ↔
      (textOf mem).length + tail.length + 1 ≤ mem.length := by
  rw [appendText, Traced.each_require_bind, and_iff_left fun _ => Traced.each_pure _]
  simp [Access.InBounds]

/-- The appends stay inside the array exactly if the text they lead to does. -/
theorem each_appendTexts_iff (buf : β) {mem : List UInt8} {tails : List (List UInt8)}
    (htails : ∀ tail ∈ tails, ∀ c ∈ tail, c ≠ 0) (hmem : (textOf mem).length < mem.length) :
    (appendTexts buf mem tails).Each Access.InBounds ↔
      (textOf mem).length + tails.flatten.length + 1 ≤ mem.length := by
  induction tails generalizing mem with
  | nil => exact iff_of_true (Traced.each_pure _) hmem
  | cons tail next ih =>
      rw [appendTexts, Traced.each_bind, each_appendText, List.flatten_cons, List.length_append]
      constructor
      · rintro ⟨hlen, hnext⟩
        obtain ⟨mem', hval, hsize, htext⟩ :=
          val_appendText buf (htails tail List.mem_cons_self) hlen
        have hfits := (ih (fun t ht => htails t (List.mem_cons_of_mem _ ht))
          (by rw [htext, hsize, List.length_append]; omega)).mp (hnext mem' hval)
        rw [htext, hsize, List.length_append] at hfits
        omega
      · intro hfits
        have hlen : (textOf mem).length + tail.length + 1 ≤ mem.length := by omega
        refine ⟨hlen, fun mem' hval => ?_⟩
        obtain ⟨mem₁, hval₁, hsize, htext⟩ :=
          val_appendText buf (htails tail List.mem_cons_self) hlen
        obtain rfl : mem₁ = mem' := Option.some.inj (hval₁.symm.trans hval)
        rw [ih (fun t ht => htails t (List.mem_cons_of_mem _ ht))
          (by rw [htext, hsize, List.length_append]; omega), htext, hsize, List.length_append]
        omega

/-- The text they lead to. -/
theorem val_appendTexts (buf : β) {mem : List UInt8} {tails : List (List UInt8)}
    (htails : ∀ tail ∈ tails, ∀ c ∈ tail, c ≠ 0)
    (hlen : (textOf mem).length + tails.flatten.length + 1 ≤ mem.length) :
    ∃ mem', (appendTexts buf mem tails).val = some mem' ∧
      textOf mem' = textOf mem ++ tails.flatten := by
  induction tails generalizing mem with
  | nil => exact ⟨mem, rfl, (List.append_nil _).symm⟩
  | cons tail next ih =>
      rw [List.flatten_cons, List.length_append] at hlen
      have hfirst : (textOf mem).length + tail.length + 1 ≤ mem.length := by omega
      obtain ⟨mem₁, hval₁, hsize, htext⟩ :=
        val_appendText buf (htails tail List.mem_cons_self) hfirst
      have hrest : (textOf mem₁).length + next.flatten.length + 1 ≤ mem₁.length := by
        rw [htext, hsize, List.length_append]
        omega
      obtain ⟨mem', hval', htext'⟩ := ih (fun t ht => htails t (List.mem_cons_of_mem _ ht)) hrest
      refine ⟨mem', ?_, ?_⟩
      · rw [appendTexts, Traced.val_bind, hval₁, Option.bind_some, hval']
      · rw [htext', htext, List.flatten_cons, List.append_assoc]

end EceLib.Support
