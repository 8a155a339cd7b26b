import EceLib.Edge.Management
import EceLib.Edge.Processing
import EceLib.Support.Run

/-!
# The edge as a system

The events an edge reacts to, one at a time, and its step function.  A step
without a result is one in which the code would use memory that is not there.
An invariant is shown for the elementary events, the commands, receptions and
passes; messages and periodic work are made of these and of changes to the
control data.
-/

namespace EceLib

open Support

inductive Event where
  /-- a command, executed -/
  | command (c : Command)
  /-- a message from the server -/
  | message (msg : Buf) (len : ℕ)
  /-- a packet from a device -/
  | packet (type : UInt32) (module : UInt64) (pkt : Buf) (size : UInt64)
  /-- `do_device_ageing` -/
  | ageing
  /-- `do_device_update` -/
  | update
  /-- `do_mgt_periodic` -/
  | periodic

/-- The command an event has executed, if any. -/
def Event.command? : Event → Option Command
  | command c => some c
  | message msg len => decodeCommand msg len
  | packet .. | ageing | update | periodic => none

namespace EdgeState

def step (env : Env) (s : EdgeState) : Event → Option EdgeState
  | .command c => (c.exec s).val
  | .message msg len => (s.mgtRcvMsg msg len).val.map Prod.snd
  | .packet type module pkt size => (s.edgeRcvPkt env type module pkt size).val.map Prod.snd
  | .ageing => s.doDeviceAgeing
  | .update => some s.doDeviceUpdate
  | .periodic => s.doMgtPeriodic env

/-- Nothing but the control data changed, and only messages to the server were
sent. -/
def ControlStep (s s' : EdgeState) : Prop :=
  ∃ k ctl stat tick msgs, ctl.upMode = s.ctl.upMode ∧ ctl.upInterval = s.ctl.upInterval ∧
    (∀ o ∈ msgs, ∃ msg, o = Output.server msg) ∧
    s' = { s.advance k with ctl := ctl, stat := stat, tick := tick, out := msgs ++ s.out }

theorem ControlStep.refl (s : EdgeState) : ControlStep s s :=
  ⟨0, s.ctl, s.stat, s.tick, [], rfl, rfl, by simp, rfl⟩

theorem ControlStep.trans {s s₁ s₂ : EdgeState} (h₁ : ControlStep s s₁)
    (h₂ : ControlStep s₁ s₂) : ControlStep s s₂ := by
  obtain ⟨k₁, ctl₁, stat₁, tick₁, msgs₁, hmode₁, hint₁, hmsgs₁, rfl⟩ := h₁
  obtain ⟨k₂, ctl₂, stat₂, tick₂, msgs₂, hmode₂, hint₂, hmsgs₂, rfl⟩ := h₂
  refine ⟨k₂ + k₁, ctl₂, stat₂, tick₂, msgs₂ ++ msgs₁, hmode₂.trans hmode₁,
    hint₂.trans hint₁, ?_, ?_⟩
  · intro o ho
    rcases List.mem_append.mp ho with ho | ho
    · exact hmsgs₂ o ho
    · exact hmsgs₁ o ho
  · simp [advance, Nat.add_assoc, List.append_assoc]

theorem controlStep_advance (s : EdgeState) (k : ℕ) : ControlStep s (s.advance k) :=
  ⟨k, s.ctl, s.stat, s.tick, [], rfl, rfl, by simp, rfl⟩

theorem controlStep_stat (s : EdgeState) (stat : EdgeMgtStat) :
    ControlStep s { s with stat := stat } :=
  ⟨0, s.ctl, stat, s.tick, [], rfl, rfl, by simp, rfl⟩

theorem controlStep_rcvAck (s : EdgeState) (msg : Buf) : ControlStep s (s.rcvAck msg) :=
  ⟨0, { s.ctl with scenerioId := msg.le32 8, status := .online, function := msg.le32 4 },
    s.stat, s.tick, [], rfl, rfl, by simp, rfl⟩

theorem controlStep_keepAlive (env : Env) (s : EdgeState) :
    ControlStep s (s.keepAlive env) := by
  have hello : ControlStep s (s.mgtSendHelloMsg env) := by
    unfold mgtSendHelloMsg mgtSendMsg
    simp only
    split
    · exact ⟨0, _, _, _, [_], rfl, rfl, by simp, rfl⟩
    · exact ⟨0, _, _, _, [_], rfl, rfl, by simp, rfl⟩
  have hoffline : ∀ s₁ : EdgeState,
      ControlStep s₁
        (if s₁.stat.timeout ≥ s₁.ctl.timeoutNum ∧ s₁.ctl.status = .online then
          { s₁ with ctl := { s₁.ctl with status := .offline } } else s₁) := by
    intro s₁
    split
    · exact ⟨0, { s₁.ctl with status := .offline }, s₁.stat, s₁.tick, [], rfl, rfl, by simp, rfl⟩
    · exact .refl s₁
  unfold keepAlive
  refine ControlStep.trans ?_ (hoffline _)
  split
  · exact hello
  · exact .refl s

/-- A message counts as an answer: the timeout is reset. -/
def answered (s : EdgeState) : EdgeState := { s with stat := { s.stat with timeout := 0 } }

/-- An Acknowledge with a complete control block. -/
def CompleteAck (msg : Buf) (len : ℕ) : Prop :=
  tlvSize + mgtControlSize ≤ len ∧ EdgeProType.ofCode (msg.le32 0) = some .ack

instance (msg : Buf) (len : ℕ) : Decidable (CompleteAck msg len) :=
  inferInstanceAs (Decidable (_ ∧ _))

/-- What `mgt_rcv_msg` does: a message without a header is ignored; any other
counts as an answer, and an Acknowledge or a command that is complete is
executed. -/
theorem mgtRcvMsg_eq_some {s s' : EdgeState} {msg : Buf} {len ret : ℕ}
    (h : (s.mgtRcvMsg msg len).val = some (ret, s')) :
    (len < tlvSize ∧ decodeCommand msg len = none ∧ s' = s) ∨
      tlvSize ≤ len ∧
        ((decodeCommand msg len = none ∧ ¬ CompleteAck msg len ∧ s' = s.answered) ∨
          (decodeCommand msg len = none ∧ CompleteAck msg len ∧
            s' = s.answered.rcvAck (msg.drop tlvSize)) ∨
          ∃ c, decodeCommand msg len = some c ∧ ¬ CompleteAck msg len ∧
            (c.exec s.answered).val = some s') := by
  unfold mgtRcvMsg at h
  unfold decodeCommand CompleteAck
  by_cases hlen : len < tlvSize
  · simp only [hlen, if_true] at h ⊢
    cases h
    exact Or.inl ⟨trivial, trivial, rfl⟩
  · simp only [hlen, if_false, Traced.val_bind, Traced.val_touch, Option.bind_some] at h ⊢
    refine Or.inr ⟨Nat.not_lt.mp hlen, ?_⟩
    cases hpro : EdgeProType.ofCode (msg.le32 0) with
    | none =>
        simp only [hpro] at h
        cases h
        exact Or.inl ⟨rfl, by simp, rfl⟩
    | some pro =>
        cases hbody : pro.bodySize with
        | none =>
            have hack : pro ≠ .ack := fun heq => by simp [heq, EdgeProType.bodySize] at hbody
            simp only [hpro, hbody] at h
            cases h
            exact Or.inl ⟨by simp [hbody], by simp [hack], rfl⟩
        | some size =>
            simp only [hpro, hbody] at h
            by_cases hsize : len - tlvSize < size
            · simp only [hsize, if_true] at h
              cases h
              refine Or.inl ⟨by simp [hbody, hsize], ?_, rfl⟩
              rintro ⟨hcomplete, hack⟩
              rw [Option.some.inj hack, EdgeProType.bodySize, Option.some.injEq] at hbody
              omega
            · simp only [hsize, if_false, Traced.val_bind, Traced.val_touch,
                Option.bind_some] at h
              cases hcommand : pro.command (msg.drop tlvSize) with
              | none =>
                  simp only [hcommand] at h
                  cases h
                  refine Or.inr (Or.inl ⟨by simp [hbody, hsize, hcommand], ?_, rfl⟩)
                  cases pro <;> cases hbody <;> cases hcommand
                  exact ⟨by omega, rfl⟩
              | some c =>
                  have hack : pro ≠ .ack := fun heq => by
                    simp [heq, EdgeProType.command] at hcommand
                  simp only [hcommand, Traced.val_bind, Option.bind_eq_some_iff] at h
                  obtain ⟨s₁, hexec, heq⟩ := h
                  cases heq
                  exact Or.inr (Or.inr ⟨c, by simp [hbody, hsize, hcommand], by simp [hack], hexec⟩)

/-- A message resets the timeout, and then has a command executed or touches
nothing but the control data. -/
theorem mgtRcvMsg_cases {s s' : EdgeState} {msg : Buf} {len ret : ℕ}
    (h : (s.mgtRcvMsg msg len).val = some (ret, s')) :
    (decodeCommand msg len = none ∧ ControlStep s s') ∨
      ∃ c stat, decodeCommand msg len = some c ∧
        (c.exec { s with stat := stat }).val = some s' := by
  have hanswered : ControlStep s s.answered := controlStep_stat s { s.stat with timeout := 0 }
  rcases mgtRcvMsg_eq_some h with ⟨_, hnone, rfl⟩ |
    ⟨_, ⟨hnone, _, rfl⟩ | ⟨hnone, _, rfl⟩ | ⟨c, hdecode, _, hexec⟩⟩
  · exact Or.inl ⟨hnone, .refl _⟩
  · exact Or.inl ⟨hnone, hanswered⟩
  · exact Or.inl ⟨hnone, hanswered.trans (controlStep_rcvAck _ _)⟩
  · exact Or.inr ⟨c, _, hdecode, hexec⟩

/-- Periodic work ages the devices and may report, between changes to the
control data. -/
theorem doMgtPeriodic_cases {env : Env} {s s' : EdgeState}
    (h : s.doMgtPeriodic env = some s') :
    ∃ s₁ s₂, ControlStep s s₁ ∧ s₁.doDeviceAgeing = some s₂ ∧
      (ControlStep s₂ s' ∨ ControlStep s₂.doDeviceUpdate s') := by
  have htick : ∀ s₁ : EdgeState, ControlStep s₁ { s₁ with tick := s₁.tick + 1 } := fun s₁ =>
    ⟨0, s₁.ctl, s₁.stat, _, [], rfl, rfl, by simp, rfl⟩
  unfold doMgtPeriodic at h
  split at h
  · cases h
  · obtain ⟨s₂, hage, rfl⟩ := Option.map_eq_some_iff.mp h
    refine ⟨_, s₂, (controlStep_advance s 1).trans (controlStep_keepAlive env _), hage, ?_⟩
    by_cases hmode : s₂.ctl.upMode = .attrPeriodic
    · simp only [hmode, if_true]
      exact Or.inr (htick _)
    · simp only [hmode, if_false]
      exact Or.inl (htick _)

end EdgeState

/-! ## Invariants of the system -/

/-- The command an event has executed, if any, meets the condition `C`. -/
def Event.Meets (C : EdgeState → Command → Prop) (s : EdgeState) (e : Event) : Prop :=
  ∀ c, e.command? = some c → C s c

/-- Every elementary event other than a packet keeps `I`. -/
structure KeptAside (I : EdgeState → Prop) : Prop where
  command : ∀ {s c s'}, I s → (Command.exec s c).val = some s' → I s'
  ageing : ∀ {s s'}, I s → s.doDeviceAgeing = some s' → I s'
  update : ∀ {s}, I s → I s.doDeviceUpdate
  control : ∀ {s s'}, I s → EdgeState.ControlStep s s' → I s'

/-- Every elementary event keeps `I`. -/
structure Kept (env : Env) (I : EdgeState → Prop) : Prop extends KeptAside I where
  packet : ∀ {s type module pkt size ret s'}, I s →
    (s.edgeRcvPkt env type module pkt size).val = some (ret, s') → I s'

/-- In states with `K`, a command keeps `I` precisely when it meets `C`, and
the other elementary events always do. -/
structure KeptIff (env : Env) (K I : EdgeState → Prop) (C : EdgeState → Command → Prop) :
    Prop where
  command : ∀ {s c s'}, K s → I s → (Command.exec s c).val = some s' → (I s' ↔ C s c)
  packet : ∀ {s type module pkt size ret s'}, K s → I s →
    (s.edgeRcvPkt env type module pkt size).val = some (ret, s') → I s'
  ageing : ∀ {s s'}, K s → I s → s.doDeviceAgeing = some s' → I s'
  update : ∀ {s}, K s → I s → I s.doDeviceUpdate
  control : ∀ {s s'}, I s → EdgeState.ControlStep s s' → I s'
  stat : ∀ {s c} stat, C { s with stat := stat } c ↔ C s c

/-- The effect of a whole event on such an invariant. -/
theorem KeptIff.step {env : Env} {K I : EdgeState → Prop} {C : EdgeState → Command → Prop}
    (hK : Kept env K) (h : KeptIff env K I C) {s s' : EdgeState} {e : Event}
    (hKs : K s) (hIs : I s) (hstep : s.step env e = some s') : I s' ↔ e.Meets C s := by
  have hnone : e.command? = none → e.Meets C s := fun hnone c hc => by
    rw [hnone] at hc
    cases hc
  cases e with
  | command c =>
      rw [h.command hKs hIs hstep]
      exact ⟨fun hc c' hc' => Option.some.inj hc' ▸ hc, fun hc => hc c rfl⟩
  | message msg len =>
      obtain ⟨⟨ret, s₁⟩, hmsg, rfl⟩ := Option.map_eq_some_iff.mp hstep
      rcases EdgeState.mgtRcvMsg_cases hmsg with ⟨hdecode, hctl⟩ | ⟨c, stat, hdecode, hexec⟩
      · exact iff_of_true (h.control hIs hctl) (hnone hdecode)
      · have hctl := EdgeState.controlStep_stat s stat
        rw [h.command (hK.control hKs hctl) (h.control hIs hctl) hexec, h.stat]
        constructor
        · intro hc c' hc'
          rw [Event.command?, hdecode] at hc'
          exact Option.some.inj hc' ▸ hc
        · intro hc
          exact hc c hdecode
  | packet type module pkt size =>
      obtain ⟨⟨ret, s₁⟩, hpkt, rfl⟩ := Option.map_eq_some_iff.mp hstep
      exact iff_of_true (h.packet hKs hIs hpkt) (hnone rfl)
  | ageing => exact iff_of_true (h.ageing hKs hIs hstep) (hnone rfl)
  | update =>
      cases hstep
      exact iff_of_true (h.update hKs hIs) (hnone rfl)
  | periodic =>
      obtain ⟨s₁, s₂, hctl, hage, hrest⟩ := EdgeState.doMgtPeriodic_cases hstep
      have hK₁ := hK.control hKs hctl
      have hI₂ := h.ageing hK₁ (h.control hIs hctl) hage
      refine iff_of_true ?_ (hnone rfl)
      rcases hrest with hctl₂ | hctl₂
      · exact h.control hI₂ hctl₂
      · exact h.control (h.update (hK.ageing hK₁ hage) hI₂) hctl₂

/-- An event keeps such an invariant if the packet it may be does. -/
theorem KeptAside.step {env : Env} {I : EdgeState → Prop} (h : KeptAside I) {s s' : EdgeState}
    {e : Event} (hI : I s) (hstep : s.step env e = some s')
    (hpacket : ∀ type module pkt size ret s₁, e = .packet type module pkt size →
      (s.edgeRcvPkt env type module pkt size).val = some (ret, s₁) → I s₁) : I s' := by
  cases e with
  | command c => exact h.command hI hstep
  | message msg len =>
      obtain ⟨⟨ret, s₁⟩, hmsg, rfl⟩ := Option.map_eq_some_iff.mp hstep
      rcases EdgeState.mgtRcvMsg_cases hmsg with ⟨_, hctl⟩ | ⟨c, stat, _, hexec⟩
      · exact h.control hI hctl
      · exact h.command (h.control hI (EdgeState.controlStep_stat s stat)) hexec
  | packet type module pkt size =>
      obtain ⟨⟨ret, s₁⟩, hpkt, rfl⟩ := Option.map_eq_some_iff.mp hstep
      exact hpacket type module pkt size ret s₁ rfl hpkt
  | ageing => exact h.ageing hI hstep
  | update =>
      cases hstep
      exact h.update hI
  | periodic =>
      obtain ⟨s₁, s₂, hctl, hage, hrest⟩ := EdgeState.doMgtPeriodic_cases hstep
      have hI₂ := h.ageing (h.control hI hctl) hage
      rcases hrest with hctl₂ | hctl₂
      · exact h.control hI₂ hctl₂
      · exact h.control (h.update hI₂) hctl₂

theorem Kept.step {env : Env} {I : EdgeState → Prop} (h : Kept env I) {s s' : EdgeState}
    {e : Event} (hI : I s) (hstep : s.step env e = some s') : I s' :=
  h.toKeptAside.step hI hstep fun _ _ _ _ _ _ _ hpkt => h.packet hI hpkt

/-- An invariant that is kept always holds in every state that can be reached. -/
theorem Kept.run {env : Env} {I : EdgeState → Prop} (h : Kept env I) {s s' : EdgeState}
    {es : List Event} (hI : I s) (hrun : run (EdgeState.step env) s es = some s') : I s' :=
  Reachable.preserves (fun _ _ _ hI hstep => h.step hI hstep) hI ⟨es, hrun⟩

/-- An invariant that is kept under a condition holds throughout a run precisely
when all commands of the run meet the condition. -/
theorem KeptIff.throughout_iff {env : Env} {K I : EdgeState → Prop}
    {C : EdgeState → Command → Prop} (hK : Kept env K) (h : KeptIff env K I C)
    {s : EdgeState} (hKs : K s) (hIs : I s) (es : List Event) :
    Throughout (EdgeState.step env) I s es ↔
      StepsMeet (EdgeState.step env) (fun s e => e.Meets C s) s es :=
  throughout_iff_stepsMeet (fun _ _ _ hK' hstep => hK.step hK' hstep)
    (fun _ _ _ hK' hI' hstep => h.step hK hK' hI' hstep) hKs hIs es

end EceLib
