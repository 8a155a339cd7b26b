import EceLib.Edge.KeepAlive

/-!
# Connections whose Hellos are answered

The edge counts a Hello in the tick that sends it, and compares the count in the
same tick, before an answer can arrive.  A server that acknowledges every Hello
before the next tick therefore keeps its edge online precisely when two open
Hellos are needed to end the connection.
-/

namespace EceLib

open Support

/-! ## The machine -/

namespace Link

variable {l : Link}

/-- An online connection with no open Hello survives an event precisely when it
allows the Hello that the event sends. -/
theorem online_step_iff (h : l.Sound) {e : LinkEvent} (honline : l.status = .online)
    (hzero : e = .tick → l.timeout = 0) :
    (l.step e).status = .online ↔ (e = .tick → l.HelloDue → 2 ≤ l.timeoutNum) := by
  by_cases he : e = .tick
  · subst he
    have hpos : l.timeoutNum.toNat ≠ 0 := fun hnum =>
      h.timeoutNum (UInt32.toNat_inj.mp hnum)
    have hnext := h.toNat_nextTimeout
    rw [hzero rfl, UInt32.toNat_zero, Nat.zero_add] at hnext
    have hstep : (l.step .tick).status = .online ↔ ¬ l.nextTimeout ≥ l.timeoutNum := by
      simp only [step]
      by_cases hmany : l.nextTimeout ≥ l.timeoutNum
      · rw [if_pos ⟨hmany, honline⟩]
        exact iff_of_false (by decide) fun hno => hno hmany
      · rw [if_neg fun hboth => hmany hboth.1]
        exact iff_of_true honline hmany
    rw [hstep, ge_iff_le, UInt32.le_iff_toNat_le, UInt32.le_iff_toNat_le, hnext]
    have htwo : (2 : UInt32).toNat = 2 := rfl
    by_cases hdue : l.HelloDue
    · rw [if_pos ⟨hdue, honline⟩, htwo]
      constructor
      · intro hlt _ _
        omega
      · intro hle
        have := hle rfl hdue
        omega
    · rw [if_neg fun hcounts => hdue hcounts.1]
      refine iff_of_true (by omega) fun _ hdue' => absurd hdue' hdue
  · refine iff_of_true ?_ fun htick => absurd htick he
    by_contra hoffline
    have hstatus : (l.step e).status = .offline := by
      cases hstatus : (l.step e).status with
      | offline => rfl
      | online => exact absurd hstatus hoffline
    exact he (offline_of_step honline hstatus).1

/-- Where no Hello is open, nothing has been counted. -/
theorem timeout_step_eq_zero {e : LinkEvent} {waiting : Bool}
    (hzero : l.status = .online → waiting = false → l.timeout = 0)
    (htick : waiting = true → e ≠ .tick) (honline : (l.step e).status = .online)
    (hanswered : waiting = true → e = .ack) (hsent : ¬ (e = .tick ∧ l.HelloDue)) :
    (l.step e).timeout = 0 := by
  by_cases hack : e = .ack
  · rw [hack]
    rfl
  · have hbefore := online_of_step honline hack
    have hopen : waiting = false := by
      cases waiting with
      | false => rfl
      | true => exact absurd (hanswered rfl) hack
    have htimeout := hzero hbefore hopen
    cases e with
    | tick =>
        have hcounts : ¬ l.Counts := fun hcounts => hsent ⟨rfl, hcounts.1⟩
        exact (if_neg hcounts).trans htimeout
    | answer => rfl
    | ack => rfl
    | helloInterval num => exact htimeout
    | timeoutNum num => exact htimeout
    | other => exact htimeout

end Link

/-! ## The edge -/

namespace EdgeState

/-- The edge, and whether a Hello of it is still to be acknowledged. -/
def awaitingStep (env : Env) (p : EdgeState × Bool) (e : OperatedEvent) :
    Option (EdgeState × Bool) :=
  (p.1.operatedStep env e).map fun s' =>
    (s', (p.2 && e.link ≠ .ack) || p.1.SendsHello e)

/-- Every Hello is acknowledged before the next tick. -/
def Acknowledged (env : Env) (s : EdgeState) (es : List OperatedEvent) : Prop :=
  StepsMeet (awaitingStep env) (fun p e => p.2 = true → e.link ≠ .tick) (s, false) es

instance (env : Env) (s : EdgeState) (es : List OperatedEvent) :
    Decidable (Acknowledged env s es) :=
  decidableStepsMeet (s, false) es

/-- An edge that is online is so after the event. -/
def StaysOnline (env : Env) (s : EdgeState) (e : OperatedEvent) : Prop :=
  s.ctl.status = .online → ∀ s', s.operatedStep env e = some s' → s'.ctl.status = .online

instance (env : Env) (s : EdgeState) (e : OperatedEvent) : Decidable (s.StaysOnline env e) :=
  inferInstanceAs (Decidable
    (s.ctl.status = .online → ∀ s' ∈ s.operatedStep env e, s'.ctl.status = .online))

/-- An edge that is online and sends a Hello may have one open. -/
def AllowsHello (s : EdgeState) (e : OperatedEvent) : Prop :=
  s.ctl.status = .online → s.SendsHello e → 2 ≤ s.ctl.timeoutNum

/-- No Hello is open that has been counted. -/
structure Settled (p : EdgeState × Bool) : Prop where
  sound : p.1.link.Sound
  timeout : p.1.link.status = .online → p.2 = false → p.1.link.timeout = 0

theorem Settled.step {env : Env} {p p' : EdgeState × Bool} {e : OperatedEvent} (h : Settled p)
    (htick : p.2 = true → e.link ≠ .tick) (hstep : awaitingStep env p e = some p') :
    Settled p' := by
  obtain ⟨s', hs', rfl⟩ := Option.map_eq_some_iff.mp hstep
  have hlink := link_operatedStep hs'
  refine ⟨hlink ▸ h.sound.step e.link, fun honline hopen => ?_⟩
  obtain ⟨hanswered, hsent⟩ := Bool.or_eq_false_iff.mp hopen
  change s'.link.timeout = 0
  rw [hlink]
  apply Link.timeout_step_eq_zero h.timeout htick (hlink ▸ honline)
  · intro hwaiting
    simpa [hwaiting] using hanswered
  · rw [← sendsHello_iff]
    exact of_decide_eq_false hsent

theorem Settled.online_step_iff {env : Env} {p : EdgeState × Bool} {s' : EdgeState}
    {e : OperatedEvent} (h : Settled p) (htick : p.2 = true → e.link ≠ .tick)
    (hstep : p.1.operatedStep env e = some s') :
    p.1.StaysOnline env e ↔ p.1.AllowsHello e := by
  have hlink := link_operatedStep hstep
  unfold StaysOnline AllowsHello
  refine imp_congr_right fun honline => ?_
  have hzero : e.link = .tick → p.1.link.timeout = 0 := by
    intro he
    refine h.timeout honline (Bool.eq_false_of_not_eq_true fun hwaiting => htick hwaiting he)
  have hstatus : (∀ s', p.1.operatedStep env e = some s' → s'.ctl.status = .online) ↔
      (p.1.link.step e.link).status = .online := by
    rw [← hlink]
    exact ⟨fun hall => hall s' hstep, fun honline' s₁ hs₁ =>
      Option.some.inj (hstep.symm.trans hs₁) ▸ honline'⟩
  rw [hstatus, Link.online_step_iff h.sound honline hzero, sendsHello_iff, and_imp]
  exact Iff.rfl

theorem Settled.stepsMeet_iff {env : Env} {p : EdgeState × Bool} {es : List OperatedEvent}
    (h : Settled p)
    (hes : StepsMeet (awaitingStep env) (fun p e => p.2 = true → e.link ≠ .tick) p es) :
    StepsMeet (operatedStep env) (StaysOnline env) p.1 es ↔
      StepsMeet (operatedStep env) AllowsHello p.1 es := by
  induction es generalizing p with
  | nil => exact Iff.rfl
  | cons e es ih =>
      refine forall_congr' fun s' => imp_congr_right fun hs' => ?_
      have hp' : awaitingStep env p e =
          some (s', (p.2 && e.link ≠ .ack) || p.1.SendsHello e) := by
        rw [awaitingStep, hs']
        rfl
      obtain ⟨htick, hrest⟩ := hes _ hp'
      exact and_congr (h.online_step_iff htick hs') (ih (h.step htick hp') hrest)

/-- An edge all of whose Hellos are acknowledged before the next tick stays
online, once it is, precisely when it allows an open Hello whenever it sends
one. -/
theorem staysOnline_iff {env : Env} {mac : List UInt8} {clock : ℕ → ℕ}
    {es : List OperatedEvent} (hes : Acknowledged env (init mac clock) es) :
    StepsMeet (operatedStep env) (StaysOnline env) (init mac clock) es ↔
      StepsMeet (operatedStep env) AllowsHello (init mac clock) es := by
  have hsettled : Settled (init mac clock, false) := ⟨sound_init mac clock, nofun⟩
  exact hsettled.stepsMeet_iff hes

theorem staysOnline_iff_ack_tick :
    StepsMeet (operatedStep Env.plain) (StaysOnline Env.plain) (init [] fun _ => 0)
        [ackMessage, .edge .periodic, ackMessage] ↔
      StepsMeet (operatedStep Env.plain) AllowsHello (init [] fun _ => 0)
        [ackMessage, .edge .periodic, ackMessage] :=
  staysOnline_iff (by decide +kernel)

/-- With a number of one, the edge does not wait for the answer. -/
theorem staysOnline_fails_of_timeoutNum_one :
    Acknowledged Env.plain (init [] fun _ => 0)
        [.cmdEdgeTimeout ["1"] 1, ackMessage, .edge .periodic, ackMessage] ∧
      ¬ StepsMeet (operatedStep Env.plain) (StaysOnline Env.plain) (init [] fun _ => 0)
        [.cmdEdgeTimeout ["1"] 1, ackMessage, .edge .periodic, ackMessage] := by
  decide +kernel

end EdgeState

end EceLib
