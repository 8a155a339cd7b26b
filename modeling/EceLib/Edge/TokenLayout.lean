import EceLib.Edge.Tokens
import EceLib.Support.Segments

/-!
# The layout of the tokens of a format

`add_g1_token_internal` looks for the first gap the new token fits in and
compares the topics only of the tokens it passes on the way, the one behind the
gap included.  In every reachable state the tokens of a format are a row of
segments of the packet, so the gap is the only one, and a token whose topic is
new is accepted precisely when its bytes are free.  A token of the same topic
further behind is not seen, and then the format has two tokens of one topic.
-/

namespace EceLib

open Support

/-- Where a token ends. -/
def G1Token.stop (token : G1Token) : ℕ := token.offset + token.len

/-- The bytes a token extracts. -/
def G1Token.range (token : G1Token) : Set ℕ := Set.Ico token.offset (token.offset + token.len)

/-- The tokens of a list lie in a row. -/
abbrev TokensInRow (start size : ℕ) (tokens : List G1Token) : Prop :=
  InRow G1Token.offset G1Token.stop start size tokens

theorem G1Token.offset_lt_stop {token : G1Token} (h : token.len ≠ 0) :
    token.offset < token.stop := Nat.lt_add_of_pos_right (Nat.pos_of_ne_zero h)

/-! ## The search for a place -/

/-- The place between two parts of a list that the search loop takes for a
token: it has looked at the topics in front and at the first one behind. -/
structure PlaceFor (token : G1Token) (start size : ℕ) (front back : List G1Token) : Prop where
  start_le : start ≤ token.offset
  stop_le : token.stop ≤ size
  front_le : ∀ cur ∈ front, cur.stop ≤ token.offset
  le_back : ∀ cur ∈ back, token.stop ≤ cur.offset
  front_topic : ∀ cur ∈ front, cur.topic ≠ token.topic
  back_topic : ∀ cur, back.head? = some cur → cur.topic ≠ token.topic

/-- In a row the search is successful precisely if there is such a place. -/
theorem insertToken_eq_some_iff {size offset1 len1 : ℕ} {token : G1Token}
    {tokens tokens' : List G1Token} (hrow : TokensInRow (offset1 + len1) size tokens)
    (hlen : token.len ≠ 0) :
    insertToken size token offset1 len1 tokens = some tokens' ↔
      ∃ front back, tokens = front ++ back ∧ tokens' = front ++ token :: back ∧
        PlaceFor token (offset1 + len1) size front back := by
  have htoken := G1Token.offset_lt_stop hlen
  induction tokens generalizing offset1 len1 tokens' with
  | nil =>
      simp only [insertToken, Option.ite_none_right_eq_some, Option.some.injEq]
      constructor
      · rintro ⟨⟨hstart, hsize⟩, rfl⟩
        exact ⟨[], [], rfl, rfl, hstart, hsize, by simp, by simp, by simp, by simp⟩
      · rintro ⟨front, back, hnil, rfl, hplace⟩
        obtain ⟨rfl, rfl⟩ := List.append_eq_nil_iff.mp hnil.symm
        exact ⟨⟨hplace.start_le, hplace.stop_le⟩, rfl⟩
  | cons cur next ih =>
      obtain ⟨hlo, hcur, hsize, hnext⟩ := inRow_cons.mp hrow
      rw [insertToken]
      by_cases htopic : token.topic = cur.topic
      · rw [if_pos htopic]
        refine iff_of_false (by simp) ?_
        rintro ⟨front, back, hsplit, _, hplace⟩
        rcases List.cons_eq_append_iff.mp hsplit with ⟨rfl, rfl⟩ | ⟨front', rfl, _⟩
        · exact hplace.back_topic cur rfl htopic.symm
        · exact hplace.front_topic cur (by simp) htopic.symm
      · rw [if_neg htopic]
        by_cases hgap : token.offset ≥ offset1 + len1 ∧ token.offset + token.len ≤ cur.offset
        · rw [if_pos hgap, Option.some.injEq]
          constructor
          · rintro rfl
            refine ⟨[], cur :: next, rfl, rfl, hgap.1, hgap.2.trans (hcur.le.trans hsize),
              by simp, List.forall_mem_cons.mpr ⟨hgap.2, ?_⟩, by simp, ?_⟩
            · intro t ht
              exact hgap.2.trans (hcur.le.trans (hnext.start_le t ht))
            · rintro t ⟨⟩
              exact Ne.symm htopic
          · rintro ⟨front, back, hsplit, rfl, hplace⟩
            rcases List.cons_eq_append_iff.mp hsplit with ⟨rfl, rfl⟩ | ⟨front', rfl, _⟩
            · rfl
            · have hle : cur.stop ≤ token.offset := hplace.front_le cur (by simp)
              have hge : token.stop ≤ cur.offset := hgap.2
              omega
        · rw [if_neg hgap]
          constructor
          · intro h
            obtain ⟨rest, hrest, rfl⟩ := Option.map_eq_some_iff.mp h
            obtain ⟨front, back, rfl, rfl, hplace⟩ := (ih hnext).mp hrest
            have hstop : cur.stop ≤ token.offset := hplace.start_le
            exact ⟨cur :: front, back, rfl, rfl, hlo.trans (hcur.le.trans hstop),
              hplace.stop_le, List.forall_mem_cons.mpr ⟨hstop, hplace.front_le⟩,
              hplace.le_back, List.forall_mem_cons.mpr ⟨Ne.symm htopic, hplace.front_topic⟩,
              hplace.back_topic⟩
          · rintro ⟨front, back, hsplit, rfl, hplace⟩
            rcases List.cons_eq_append_iff.mp hsplit with ⟨rfl, rfl⟩ | ⟨front', rfl, rfl⟩
            · exact absurd ⟨hplace.start_le, hplace.le_back cur (by simp)⟩ hgap
            · have hplace' : PlaceFor token (cur.offset + cur.len) size front' back :=
                ⟨hplace.front_le cur (by simp), hplace.stop_le,
                  fun t ht => hplace.front_le t (by simp [ht]), hplace.le_back,
                  fun t ht => hplace.front_topic t (by simp [ht]), hplace.back_topic⟩
              rw [(ih hnext).mpr ⟨front', back, rfl, rfl, hplace'⟩]
              simp

/-! ## Free bytes -/

/-- The tokens of a format are sorted by offset, they are not empty and do not
overlap, and they lie within the size of the format. -/
structure G1Fmt.LaidOut (fmt : G1Fmt) : Prop where
  sorted : fmt.token.Pairwise fun a b => a.offset < b.offset
  nonempty : ∀ token ∈ fmt.token, 0 < token.len
  disjoint : fmt.token.Pairwise fun a b => Disjoint a.range b.range
  within : ∀ token ∈ fmt.token, token.offset + token.len ≤ fmt.size

/-- The bytes of a token are within the size of the format, and no token of the
format has one of them. -/
structure G1Fmt.Free (fmt : G1Fmt) (token : G1Token) : Prop where
  within : token.offset + token.len ≤ fmt.size
  disjoint : ∀ cur ∈ fmt.token, Disjoint token.range cur.range

/-- The token was put into the format in its place, and the others stay in
order. -/
def G1Fmt.Inserted (fmt : G1Fmt) (token : G1Token) (fmt' : G1Fmt) : Prop :=
  ∃ front back, fmt.token = front ++ back ∧
    fmt' = { fmt with token := front ++ token :: back } ∧
    (∀ cur ∈ front, cur.offset < token.offset) ∧ ∀ cur ∈ back, token.offset < cur.offset

/-- A token of a topic that the format does not have yet is accepted precisely
if its bytes are free, and then it is put in its place. -/
def G1Fmt.AcceptsFree (fmt : G1Fmt) : Prop :=
  ∀ tokenTopic offset len : UInt32, 0 < len → (∀ cur ∈ fmt.token, cur.topic ≠ tokenTopic) →
    ((addG1TokenInternal fmt tokenTopic offset.toNat len.toNat).isSome ↔
      fmt.Free ⟨tokenTopic, offset.toNat, len.toNat⟩) ∧
    ∀ token fmt', addG1TokenInternal fmt tokenTopic offset.toNat len.toNat = some (token, fmt') →
      token = ⟨tokenTopic, offset.toNat, len.toNat⟩ ∧ fmt.Inserted token fmt'

/-- The tokens of a format of a reachable state. -/
abbrev G1Fmt.InRow (fmt : G1Fmt) : Prop := TokensInRow 0 fmt.size fmt.token

theorem G1Fmt.laidOut_of_inRow {fmt : G1Fmt} (h : fmt.InRow) : fmt.LaidOut where
  sorted := h.pairwise_lo
  nonempty := fun token hmem => by
    have hlt : token.offset < token.offset + token.len := h.nonempty token hmem
    omega
  disjoint := h.pairwise_disjoint
  within := h.le_stop

/-- The two halves of a free place. -/
theorem G1Fmt.Free.exists_split {fmt : G1Fmt} {token : G1Token} (hfree : fmt.Free token)
    (h : fmt.InRow) (hlen : token.len ≠ 0) :
    ∃ front back, fmt.token = front ++ back ∧ (∀ cur ∈ front, cur.stop ≤ token.offset) ∧
      ∀ cur ∈ back, token.stop ≤ cur.offset :=
  Support.InRow.exists_split h (G1Token.offset_lt_stop hlen) hfree.disjoint

theorem PlaceFor.free {fmt : G1Fmt} {token : G1Token} {front back : List G1Token}
    (hplace : PlaceFor token 0 fmt.size front back) (h : fmt.InRow) (hlen : token.len ≠ 0)
    (hsplit : fmt.token = front ++ back) : fmt.Free token where
  within := hplace.stop_le
  disjoint := by
    rw [G1Fmt.InRow, hsplit] at h
    rw [hsplit]
    exact h.disjoint_of_split (G1Token.offset_lt_stop hlen) hplace.front_le hplace.le_back

/-- A token of a new topic has a place precisely if its bytes are free. -/
theorem G1Fmt.isSome_insertToken_iff {fmt : G1Fmt} {token : G1Token} (h : fmt.InRow)
    (hlen : token.len ≠ 0) (htopic : ∀ cur ∈ fmt.token, cur.topic ≠ token.topic) :
    (insertToken fmt.size token 0 0 fmt.token).isSome ↔ fmt.Free token := by
  rw [Option.isSome_iff_exists]
  constructor
  · rintro ⟨tokens, htokens⟩
    obtain ⟨front, back, hsplit, _, hplace⟩ := (insertToken_eq_some_iff h hlen).mp htokens
    exact hplace.free h hlen hsplit
  · intro hfree
    obtain ⟨front, back, hsplit, hfront, hback⟩ := hfree.exists_split h hlen
    rw [hsplit] at htopic
    refine ⟨front ++ token :: back, (insertToken_eq_some_iff h hlen).mpr
      ⟨front, back, hsplit, rfl, Nat.zero_le _, hfree.within, hfront, hback, ?_, ?_⟩⟩
    · intro cur hcur
      exact htopic cur (List.mem_append_left back hcur)
    · intro cur hcur
      exact htopic cur (List.mem_append_right front (List.mem_of_head? hcur))

theorem G1Fmt.acceptsFree_of_inRow {fmt : G1Fmt} (h : fmt.InRow) : fmt.AcceptsFree := by
  intro tokenTopic offset len hpos htopic
  have hlen : len.toNat ≠ 0 := Nat.pos_iff_ne_zero.mp hpos
  constructor
  · rw [addG1TokenInternal, Option.isSome_map]
    exact isSome_insertToken_iff h hlen htopic
  · intro token fmt' hadd
    obtain ⟨rfl, tokens, htokens, rfl⟩ := addG1TokenInternal_eq_some hadd
    obtain ⟨front, back, hsplit, rfl, hplace⟩ := (insertToken_eq_some_iff h hlen).mp htokens
    rw [G1Fmt.InRow, hsplit] at h
    refine ⟨rfl, front, back, hsplit, rfl, ?_, ?_⟩
    · intro cur hcur
      have hlt : cur.offset < cur.stop := h.nonempty cur (by simp [hcur])
      exact hlt.trans_le (hplace.front_le cur hcur)
    · intro cur hcur
      have hlt : offset.toNat < offset.toNat + len.toNat := by omega
      exact hlt.trans_le (hplace.le_back cur hcur)

theorem fmtKept_inRow : FmtKept fun _ fmt => fmt.InRow where
  fresh := fun _ _ _ _ _ _ _ => inRow_nil
  add := by
    intro topic fmt token tokens _ _ hlen hrow htokens
    obtain ⟨front, back, hsplit, rfl, hplace⟩ := (insertToken_eq_some_iff hrow hlen).mp htokens
    rw [G1Fmt.InRow, hsplit] at hrow
    exact hrow.insert (G1Token.offset_lt_stop hlen) (Nat.zero_le _) hplace.stop_le
      hplace.front_le hplace.le_back
  del := fun _ hrow => hrow.sublist List.eraseP_sublist

/-- In every state of a run the tokens of each format are laid out in order,
and a token of a new topic is accepted precisely if its bytes are free. -/
theorem tokenLayout_throughout (env : Env) (mac : List UInt8) (clock : ℕ → ℕ)
    (es : List Event) :
    Throughout (EdgeState.step env)
      (EdgeState.EachFmt fun _ fmt => fmt.LaidOut ∧ fmt.AcceptsFree)
      (EdgeState.init mac clock) es := by
  intro fs _ s hrun topic pdt hget key fmt hfmt
  have hrow := (fmtKept_inRow.kept env).run (EdgeState.eachFmt_init _ mac clock) hrun
  have h : fmt.InRow := hrow topic pdt hget key fmt hfmt
  exact ⟨G1Fmt.laidOut_of_inRow h, G1Fmt.acceptsFree_of_inRow h⟩

end EceLib
