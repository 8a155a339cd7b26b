import Mathlib.Data.List.Basic

/-!
# Deciding about the characters of a text

A property of every character of a text is decided character by character, and
not by trying all characters there are.
-/

namespace EceLib.Support

instance (priority := high) decidableForallMem (p : Char → Prop) [DecidablePred p]
    (s : List Char) : Decidable (∀ c ∈ s, p c) :=
  List.decidableBAll p s

instance (priority := high) decidableForallMemOption (p : Char → Prop) [DecidablePred p]
    (c : Option Char) : Decidable (∀ a ∈ c, p a) :=
  match c with
  | none => isTrue (by simp)
  | some a => decidable_of_iff (p a) (by simp)

end EceLib.Support
