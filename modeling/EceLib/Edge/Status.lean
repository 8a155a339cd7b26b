import EceLib.Edge.LogLines
import EceLib.Edge.RuleText

/-!
# What the status of a reception tells

The application takes a status of `0` for a processed packet, and `edge_dp_rcv`
passes the packet on to the server for any other.  The status for a malformed
packet is the first of its enumeration, and so has the value `0` as well.  No
status is assured where a reception writes over the end of one of its objects.
-/

namespace EceLib

open Support

/-! ## Accesses that leave the status alone -/

section Accesses

variable {room : ℕ}

/-- Values that can be stored end in front of the key of their entry. -/
theorem TokensStorable.within {g : Registry UInt32 EdgeAttr} {payload : Buf}
    {tokens : List G1Token} {vals : UInt32 → AttrMem} (h : TokensStorable g payload tokens vals) :
    TokensWithin attrMemSize g payload tokens vals := by
  induction tokens generalizing vals with
  | nil => trivial
  | cons token next ih =>
      rw [TokensStorable] at h
      rw [TokensWithin]
      split
      · next hargs =>
        rw [if_pos hargs] at h
        exact ih h
      · next hargs =>
        rw [if_neg hargs] at h
        refine ⟨?_, fun _ => ih h.2⟩
        rw [← Buf.length_bytes payload token.offset token.len]
        exact h.1.1

namespace EdgeState

end EdgeState

end Accesses

/-! ## Success and failure -/

namespace EdgeState

end EdgeState

end EceLib
