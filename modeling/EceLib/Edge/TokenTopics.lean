import EceLib.Edge.TokenLayout

/-!
# Tokens of one topic

A format is meant to have at most one token of a topic.  The search for a gap
stops at the first one that fits, before it has seen all tokens, so a second
token of a topic gets in precisely when it is put in front of another token
that stands in front of the first.
-/

namespace EceLib

open Support

/-- The topics of the tokens of a format are different: a packet assigns each
attribute at most once, and a token that is deleted leaves none of its topic. -/
structure G1Fmt.UniqueTopics (fmt : G1Fmt) : Prop where
  pairwise : fmt.token.Pairwise fun a b => a.topic ≠ b.topic
  assigned : ∀ topic, topicCount fmt.token topic ≤ 1
  deleted : ∀ topic, ∀ token ∈ (delG1TokenInternal fmt topic).token, token.topic ≠ topic

/-- If the bytes of the new token are free, no token stands between it and a
token of its topic behind it. -/
def G1Fmt.KeepsTopics (fmt : G1Fmt) (token : G1Token) : Prop :=
  fmt.Free token → ∀ cur ∈ fmt.token, cur.topic = token.topic →
    ¬ ∃ other ∈ fmt.token, token.offset < other.offset ∧ other.offset < cur.offset

theorem topicCount_le_one_iff {tokens : List G1Token} :
    (∀ topic, topicCount tokens topic ≤ 1) ↔ tokens.Pairwise fun a b => a.topic ≠ b.topic := by
  induction tokens with
  | nil => simp
  | cons cur next ih =>
      rw [List.pairwise_cons, ← ih]
      constructor
      · intro h
        refine ⟨fun token hmem htopic => ?_, fun topic => ?_⟩
        · have hcur := h cur.topic
          have hpos : topicCount next cur.topic ≠ 0 := fun hzero =>
            topicCount_eq_zero_iff.mp hzero ⟨token, hmem, htopic.symm⟩
          rw [topicCount_cons, if_pos rfl] at hcur
          omega
        · have htopic := h topic
          rw [topicCount_cons] at htopic
          omega
      · rintro ⟨hcur, hnext⟩ topic
        rw [topicCount_cons]
        by_cases htopic : topic = cur.topic
        · have hzero : topicCount next topic = 0 := by
            rw [topicCount_eq_zero_iff]
            rintro ⟨token, hmem, heq⟩
            exact hcur token hmem (htopic.symm.trans heq.symm)
          rw [if_pos htopic, hzero]
        · rw [if_neg htopic]
          exact hnext topic

/-- It is enough that the topics are different. -/
theorem G1Fmt.uniqueTopics_iff {fmt : G1Fmt} :
    fmt.UniqueTopics ↔ fmt.token.Pairwise fun a b => a.topic ≠ b.topic := by
  refine ⟨UniqueTopics.pairwise, fun h => ⟨h, topicCount_le_one_iff.mpr h, ?_⟩⟩
  intro topic token hmem htopic
  have hcount := topicCount_le_one_iff.mpr h topic
  have herase : topicCount (delG1TokenInternal fmt topic).token topic = 0 := by
    rw [delG1TokenInternal, topicCount_eraseP, if_pos rfl]
    omega
  exact topicCount_eq_zero_iff.mp herase ⟨token, hmem, htopic⟩

/-- A token that was put into its place has a topic of its own precisely if no
token of the format has it. -/
theorem pairwise_topic_insert_iff {front back : List G1Token} {token : G1Token}
    (h : (front ++ back).Pairwise fun a b => a.topic ≠ b.topic) :
    ((front ++ token :: back).Pairwise fun a b => a.topic ≠ b.topic) ↔
      ∀ cur ∈ front ++ back, cur.topic ≠ token.topic := by
  have hsymm : ∀ {a b : G1Token}, a.topic ≠ b.topic → b.topic ≠ a.topic := Ne.symm
  rw [List.Perm.pairwise_iff hsymm List.perm_middle, List.pairwise_cons]
  constructor
  · rintro ⟨htoken, _⟩ cur hmem
    exact (htoken cur hmem).symm
  · intro htoken
    exact ⟨fun cur hmem => (htoken cur hmem).symm, h⟩

/-- The first token behind a gap is the only one with no other token between
it and the gap. -/
theorem head_of_nothing_between {start size : ℕ} {token cur : G1Token} {back : List G1Token}
    (h : TokensInRow start size back) (hback : ∀ other ∈ back, token.offset < other.offset)
    (hcur : cur ∈ back) :
    (¬ ∃ other ∈ back, token.offset < other.offset ∧ other.offset < cur.offset) ↔
      back.head? = some cur := by
  cases back with
  | nil => simp at hcur
  | cons first rest =>
      have hfirst := (List.pairwise_cons.mp h.pairwise_lo).1
      rw [List.head?_cons, Option.some.injEq]
      constructor
      · intro hnone
        rcases List.mem_cons.mp hcur with rfl | hrest
        · rfl
        · exact absurd ⟨first, by simp, hback first (by simp), hfirst cur hrest⟩ hnone
      · rintro rfl ⟨other, hother, _, hlt⟩
        rcases List.mem_cons.mp hother with rfl | hrest
        · exact lt_irrefl _ hlt
        · exact lt_asymm hlt (hfirst other hrest)

/-- Where the search comes to an end before it has seen a token of the topic,
another token stands in front of that. -/
theorem G1Fmt.keepsTopics_iff {fmt : G1Fmt} {token : G1Token} (h : fmt.InRow)
    (hlen : token.len ≠ 0) (hunique : fmt.token.Pairwise fun a b => a.topic ≠ b.topic) :
    (∀ tokens, insertToken fmt.size token 0 0 fmt.token = some tokens →
      tokens.Pairwise fun a b => a.topic ≠ b.topic) ↔ fmt.KeepsTopics token := by
  have htoken := G1Token.offset_lt_stop hlen
  constructor
  · rintro hinsert hfree cur hcur htopic ⟨other, hother, hlt, hltcur⟩
    obtain ⟨front, back, hsplit, hfront, hback⟩ := hfree.exists_split h hlen
    have hrow : TokensInRow 0 fmt.size (front ++ back) := hsplit ▸ h
    rw [hsplit] at hcur hother hunique
    -- both tokens stand behind the gap
    have hbehind : ∀ t ∈ front ++ back, token.offset < t.offset → t ∈ back := by
      intro t ht hlt
      rcases List.mem_append.mp ht with ht | ht
      · have hle := hfront t ht
        have hne := hrow.nonempty t (List.mem_append_left back ht)
        omega
      · exact ht
    have hcurback := hbehind cur hcur (hlt.trans hltcur)
    have hotherback := hbehind other hother hlt
    have hnothead : back.head? ≠ some cur := by
      rw [Ne, ← head_of_nothing_between (hrow.sublist (List.sublist_append_right front back))
        (fun t ht => htoken.trans_le (hback t ht)) hcurback, not_not]
      exact ⟨other, hotherback, hlt, hltcur⟩
    obtain ⟨_, hbackunique, hdiff⟩ := List.pairwise_append.mp hunique
    have hplace : PlaceFor token 0 fmt.size front back := by
      refine ⟨Nat.zero_le _, hfree.within, hfront, hback, ?_, ?_⟩
      · intro t ht
        exact htopic ▸ hdiff t ht cur hcurback
      · intro t ht
        cases back with
        | nil => cases ht
        | cons first rest =>
            cases ht
            rcases List.mem_cons.mp hcurback with rfl | hrest
            · exact absurd rfl hnothead
            · exact htopic ▸ (List.pairwise_cons.mp hbackunique).1 cur hrest
    have hpair := hinsert _
      ((insertToken_eq_some_iff h hlen).mpr ⟨front, back, hsplit, rfl, hplace⟩)
    exact (pairwise_topic_insert_iff hunique).mp hpair cur hcur htopic
  · intro hkeeps tokens htokens
    obtain ⟨front, back, hsplit, rfl, hplace⟩ := (insertToken_eq_some_iff h hlen).mp htokens
    have hrow : TokensInRow 0 fmt.size (front ++ back) := hsplit ▸ h
    have hfree := hplace.free h hlen hsplit
    rw [KeepsTopics, hsplit] at hkeeps
    rw [hsplit] at hunique
    rw [pairwise_topic_insert_iff hunique]
    intro cur hcur htopic
    rcases List.mem_append.mp hcur with hfront | hback
    · exact hplace.front_topic cur hfront htopic
    · have hbetween := hkeeps hfree cur hcur htopic
      refine hplace.back_topic cur ?_ htopic
      rw [← head_of_nothing_between (hrow.sublist (List.sublist_append_right front back))
        (fun t ht => htoken.trans_le (hplace.le_back t ht)) hback]
      rintro ⟨other, hother, hlt⟩
      exact hbetween ⟨other, List.mem_append_right front hother, hlt⟩

theorem fmtKeptIff_uniqueTopics :
    FmtKeptIff (fun _ fmt => fmt.InRow) (fun _ fmt => fmt.UniqueTopics) G1Fmt.KeepsTopics where
  fresh := fun _ _ _ _ _ _ _ => G1Fmt.uniqueTopics_iff.mpr List.Pairwise.nil
  add := by
    intro topic fmt token _ _ hlen hrow hunique
    simp only [G1Fmt.uniqueTopics_iff]
    exact G1Fmt.keepsTopics_iff hrow hlen hunique.pairwise
  del := by
    intro topic fmt tokenTopic hunique
    exact G1Fmt.uniqueTopics_iff.mpr (hunique.pairwise.sublist List.eraseP_sublist)

/-- In a run the topics of the tokens of each format are unique throughout,
precisely when no accepted token is put in front of another one that stands in
front of a token of its topic. -/
theorem uniqueTopics_throughout_iff (env : Env) (mac : List UInt8) (clock : ℕ → ℕ)
    (es : List Event) :
    Throughout (EdgeState.step env) (EdgeState.EachFmt fun _ fmt => fmt.UniqueTopics)
        (EdgeState.init mac clock) es ↔
      StepsMeet (EdgeState.step env) (fun s e => e.Meets (OnAddToken G1Fmt.KeepsTopics) s)
        (EdgeState.init mac clock) es :=
  (fmtKeptIff_uniqueTopics.keptIff env).throughout_iff (fmtKept_inRow.kept env)
    (EdgeState.eachFmt_init _ mac clock) (EdgeState.eachFmt_init _ mac clock) es

/-- Two tokens, and a second token of the last one's topic in front of both. -/
def secondTokenRun : List Command :=
  [.addProduct 5 1, .addPacketFormat (Buf.ofBytes []) 0 5 7 10 0 0, .addFormatToken 5 7 2 0 4 1,
    .addFormatToken 5 7 1 0 8 1, .addFormatToken 5 7 1 0 0 1]

/-- The format has two tokens of topic 1. -/
theorem uniqueTopics_fails_of_second_token :
    ¬ ∀ (env : Env) (mac : List UInt8) (clock : ℕ → ℕ) (cs : List Command) (s : EdgeState),
      run (EdgeState.step env) (EdgeState.init mac clock) (cs.map Event.command) = some s →
        s.EachFmt fun _ fmt => fmt.UniqueTopics := by
  intro h
  have heval : ((run (EdgeState.step Env.plain) (EdgeState.init [] fun _ => 0)
      (secondTokenRun.map Event.command)).bind fun s =>
        (s.getG1FmtPdt 5 7).map fun found => topicCount found.2.token 1) = some 2 := by
    decide +kernel
  obtain ⟨s, hrun, hfind⟩ := Option.bind_eq_some_iff.mp heval
  obtain ⟨⟨pdt, fmt⟩, hget, hcount⟩ := Option.map_eq_some_iff.mp hfind
  obtain ⟨hpdt, hfmt⟩ := EdgeState.getG1FmtPdt_eq_some_iff.mp hget
  have hunique := h Env.plain [] (fun _ => 0) secondTokenRun s hrun 5 pdt hpdt 7 fmt hfmt
  have hle : topicCount fmt.token 1 ≤ 1 := hunique.assigned 1
  have htwo : topicCount fmt.token 1 = 2 := hcount
  omega

end EceLib
