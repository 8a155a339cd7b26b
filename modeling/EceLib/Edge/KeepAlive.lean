import EceLib.Edge.Cli
import EceLib.Edge.Config

/-!
# The connection to the server

Whether the edge is online depends on five numbers, which the timer, the server
and the operator change.  They make up a machine of their own, which the edge
follows step by step; devices, products and packets do not touch it.
-/

namespace EceLib

open Support

/-! ## The machine -/

/-- The part of the state that the connection depends on. -/
structure Link where
  status : EdgeMgtStatus
  timeout : UInt32
  helloInterval : UInt32
  timeoutNum : UInt32
  tick : ℕ

/-- What can happen to the connection.  The operator never sets a number to zero. -/
inductive LinkEvent where
  | tick
  /-- a message that is no complete Acknowledge -/
  | answer
  | ack
  | helloInterval (num : {num : UInt32 // num ≠ 0})
  | timeoutNum (num : {num : UInt32 // num ≠ 0})
  | other
deriving DecidableEq

namespace Link

/-- The next tick sends a Hello. -/
def HelloDue (l : Link) : Prop := l.tick % l.helloInterval.toNat = 0

instance (l : Link) : Decidable l.HelloDue := inferInstanceAs (Decidable (_ = _))

/-- The next tick counts a Hello as not answered. -/
def Counts (l : Link) : Prop := l.HelloDue ∧ l.status = .online

instance (l : Link) : Decidable l.Counts := inferInstanceAs (Decidable (_ ∧ _))

/-- The count after the next tick. -/
def nextTimeout (l : Link) : UInt32 := if l.Counts then l.timeout + 1 else l.timeout

def step (l : Link) : LinkEvent → Link
  | .tick =>
      { l with
        status :=
          if l.nextTimeout ≥ l.timeoutNum ∧ l.status = .online then .offline else l.status
        timeout := l.nextTimeout
        tick := l.tick + 1 }
  | .answer => { l with timeout := 0 }
  | .ack => { l with timeout := 0, status := .online }
  | .helloInterval num => { l with helloInterval := num }
  | .timeoutNum num => { l with timeoutNum := num }
  | .other => l

/-- How many of the events are ticks that send a Hello while online. -/
def hellos : Link → List LinkEvent → ℕ
  | _, [] => 0
  | l, e :: es => (if e = .tick ∧ l.Counts then 1 else 0) + hellos (l.step e) es

/-- Neither number is zero, and the count is not at its end. -/
structure Sound (l : Link) : Prop where
  helloInterval : l.helloInterval ≠ 0
  timeoutNum : l.timeoutNum ≠ 0
  timeout : l.status = .online → l.timeout.toNat < 2 ^ 32 - 1

variable {l : Link}

/-- After a tick an online connection has fewer Hellos open than it may. -/
theorem lt_of_step_tick (h : (l.step .tick).status = .online) :
    (l.step .tick).timeout < (l.step .tick).timeoutNum := by
  simp only [step] at *
  by_cases hmany : l.nextTimeout ≥ l.timeoutNum ∧ l.status = .online
  · rw [if_pos hmany] at h
    cases h
  · rw [if_neg hmany] at h
    exact UInt32.not_le.mp fun hle => hmany ⟨hle, h⟩

theorem Sound.step (h : l.Sound) (e : LinkEvent) : (l.step e).Sound := by
  have hzero : (0 : UInt32).toNat < 2 ^ 32 - 1 := by decide
  cases e with
  | tick =>
      refine ⟨h.helloInterval, h.timeoutNum, fun honline => ?_⟩
      have hlt := UInt32.lt_iff_toNat_lt.mp (lt_of_step_tick honline)
      have hmax := (l.step .tick).timeoutNum.toNat_lt
      omega
  | answer => exact ⟨h.helloInterval, h.timeoutNum, fun _ => hzero⟩
  | ack => exact ⟨h.helloInterval, h.timeoutNum, fun _ => hzero⟩
  | helloInterval num => exact ⟨num.2, h.timeoutNum, h.timeout⟩
  | timeoutNum num => exact ⟨h.helloInterval, num.2, h.timeout⟩
  | other => exact h

theorem Sound.foldl (h : l.Sound) (es : List LinkEvent) : (es.foldl Link.step l).Sound := by
  induction es generalizing l with
  | nil => exact h
  | cons e es ih => exact ih (h.step e)

/-- The count does not wrap around. -/
theorem Sound.toNat_nextTimeout (h : l.Sound) :
    l.nextTimeout.toNat = l.timeout.toNat + if l.Counts then 1 else 0 := by
  unfold nextTimeout
  by_cases hcounts : l.Counts
  · have hlt := h.timeout hcounts.2
    rw [if_pos hcounts, if_pos hcounts, UInt32.toNat_add, UInt32.toNat_one]
    omega
  · rw [if_neg hcounts, if_neg hcounts, Nat.add_zero]

/-- Where no message arrives, the count grows with every Hello sent online. -/
theorem Sound.toNat_timeout_foldl (h : l.Sound) {es : List LinkEvent}
    (hes : ∀ e ∈ es, e ≠ .answer ∧ e ≠ .ack) :
    (es.foldl Link.step l).timeout.toNat = l.timeout.toNat + l.hellos es := by
  induction es generalizing l with
  | nil => rfl
  | cons e es ih =>
      have hrest := ih (h.step e) fun e' he' => hes e' (by simp [he'])
      rw [List.foldl_cons, hrest, hellos]
      cases e with
      | tick =>
          change l.nextTimeout.toNat + _ = _
          rw [h.toNat_nextTimeout]
          simp only [true_and]
          omega
      | answer => exact absurd rfl (hes .answer (by simp)).1
      | ack => exact absurd rfl (hes .ack (by simp)).2
      | helloInterval num => simp [Link.step]
      | timeoutNum num => simp [Link.step]
      | other => simp [Link.step]

theorem hellos_append (es : List LinkEvent) (e : LinkEvent) :
    l.hellos (es ++ [e]) =
      l.hellos es + if e = .tick ∧ (es.foldl Link.step l).Counts then 1 else 0 := by
  induction es generalizing l with
  | nil => exact Nat.add_comm _ _
  | cons e' es ih =>
      rw [List.cons_append, hellos, ih, hellos, List.foldl_cons, Nat.add_assoc]

/-- Only a tick ends a connection, when its Hello is one too many. -/
theorem offline_of_step {e : LinkEvent} (honline : l.status = .online)
    (h : (l.step e).status = .offline) : e = .tick ∧ l.timeoutNum ≤ l.nextTimeout := by
  cases e with
  | tick =>
      refine ⟨rfl, ?_⟩
      simp only [Link.step] at h
      by_cases hmany : l.nextTimeout ≥ l.timeoutNum ∧ l.status = .online
      · exact hmany.1
      · rw [if_neg hmany, honline] at h
        cases h
  | ack => cases h
  | answer => exact absurd (h.symm.trans honline) (by decide)
  | helloInterval num => exact absurd (h.symm.trans honline) (by decide)
  | timeoutNum num => exact absurd (h.symm.trans honline) (by decide)
  | other => exact absurd (h.symm.trans honline) (by decide)

/-- Only an Acknowledge begins a connection. -/
theorem online_of_step {e : LinkEvent} (h : (l.step e).status = .online) (hack : e ≠ .ack) :
    l.status = .online := by
  cases e with
  | tick =>
      simp only [Link.step] at h
      by_cases hmany : l.nextTimeout ≥ l.timeoutNum ∧ l.status = .online
      · exact hmany.2
      · rwa [if_neg hmany] at h
  | ack => exact absurd rfl hack
  | answer => exact h
  | helloInterval num => exact h
  | timeoutNum num => exact h
  | other => exact h

end Link

/-! ## The edge follows the machine -/

namespace EdgeState

/-- The connection of an edge. -/
def link (s : EdgeState) : Link where
  status := s.ctl.status
  timeout := s.stat.timeout
  helloInterval := s.ctl.helloInterval
  timeoutNum := s.ctl.timeoutNum
  tick := s.tick

/-- The control data and the connection are the same. -/
structure SameControl (s s' : EdgeState) : Prop where
  ctl : s'.ctl = s.ctl
  stat : s'.stat = s.stat
  tick : s'.tick = s.tick

theorem SameControl.refl (s : EdgeState) : SameControl s s := ⟨rfl, rfl, rfl⟩

theorem SameControl.trans {s s₁ s₂ : EdgeState} (h₁ : SameControl s s₁)
    (h₂ : SameControl s₁ s₂) : SameControl s s₂ :=
  ⟨h₂.ctl.trans h₁.ctl, h₂.stat.trans h₁.stat, h₂.tick.trans h₁.tick⟩

theorem SameControl.link {s s' : EdgeState} (h : SameControl s s') : s'.link = s.link := by
  rw [EdgeState.link, EdgeState.link, h.ctl, h.stat, h.tick]

theorem sameControl_delDevInternal {s s' : EdgeState} {dev : Dev}
    (h : s.delDevInternal dev = some s') : SameControl s s' := by
  unfold delDevInternal at h
  cases hpdt : s.deref dev.pdt with
  | none => simp [hpdt] at h
  | some pdt =>
      simp only [hpdt, Option.some.injEq] at h
      subst h
      exact ⟨rfl, rfl, rfl⟩

theorem sameControl_exec {s s' : EdgeState} {c : Command} (h : (c.exec s).val = some s') :
    SameControl s s' := by
  by_cases hc : c.IsDevice
  · cases c with
    | addDevice addr len linkType module topic =>
        simp only [Command.exec, Traced.val_bind, Option.bind_eq_some_iff, Traced.val_pure] at h
        obtain ⟨⟨dev, s₁⟩, hadd, heq⟩ := h
        cases heq
        rcases addDev_cases hadd with rfl | ⟨pdt, _, _, _, rfl⟩
        · exact .refl _
        · unfold addDevInternal
          split
          · exact .refl _
          · exact ⟨rfl, rfl, rfl⟩
    | delDevice addr len linkType =>
        rcases delDev_cases h with rfl | ⟨dev, _, hdel⟩
        · exact .refl _
        · exact sameControl_delDevInternal hdel
    | _ => exact hc.elim
  · obtain ⟨attrs, pdts, next, rfl⟩ := Command.exec_frame h hc
    exact ⟨rfl, rfl, rfl⟩

theorem sameControl_edgeRcvPkt {env : Env} {s s' : EdgeState} {type : UInt32} {module : UInt64}
    {pkt : Buf} {size : UInt64} {ret : ℕ}
    (h : (s.edgeRcvPkt env type module pkt size).val = some (ret, s')) : SameControl s s' := by
  obtain ⟨k, file, msgs, _, rfl | ⟨dev, s₁, dev₁, _, hsteps, rfl⟩⟩ := edgeRcvPkt_cases h
  · exact ⟨rfl, rfl, rfl⟩
  · obtain ⟨⟨j, out, rfl⟩, _⟩ := hsteps.frame
    exact ⟨rfl, rfl, rfl⟩

theorem sameControl_doDeviceAgeing {s s' : EdgeState} (h : s.doDeviceAgeing = some s') :
    SameControl s s' := by
  unfold doDeviceAgeing at h
  simp only at h
  split at h
  · cases h
    exact ⟨rfl, rfl, rfl⟩
  · split at h
    · obtain ⟨s₁, hscan, rfl⟩ := Option.map_eq_some_iff.mp h
      have hsame : SameControl s.tickClock s₁ :=
        ageScan_rel SameControl.refl (fun _ _ _ => SameControl.trans)
          (fun _ _ _ _ _ hdel => sameControl_delDevInternal hdel) hscan
      exact ⟨hsame.ctl, hsame.stat, hsame.tick⟩
    · cases h
      exact ⟨rfl, rfl, rfl⟩

theorem sameControl_doDeviceUpdate (s : EdgeState) : SameControl s s.doDeviceUpdate := by
  rcases doDeviceUpdate_cases s with ⟨last, _, h⟩ | ⟨gDevMap, out, _, _, h, _⟩
  · rw [h]
    exact ⟨rfl, rfl, rfl⟩
  · rw [h]
    exact ⟨rfl, rfl, rfl⟩

end EdgeState

/-- What an event is to the connection. -/
def OperatedEvent.link : OperatedEvent → LinkEvent
  | .edge .periodic => .tick
  | .edge (.message msg len) =>
      if len < tlvSize then .other
      else if EdgeState.CompleteAck msg len then .ack
      else .answer
  | .edge _ => .other
  | .cmdEdgeHello argv num =>
      if h : CmdAccepts argv num then .helloInterval ⟨num, h.2.2⟩ else .other
  | .cmdEdgeTimeout argv num =>
      if h : CmdAccepts argv num then .timeoutNum ⟨num, h.2.2⟩ else .other

/-- A message from the server that is not too short for its header. -/
def OperatedEvent.IsAnswer : OperatedEvent → Prop
  | .edge (.message _ len) => tlvSize ≤ len
  | _ => False

theorem OperatedEvent.link_cases (e : OperatedEvent) :
    (e = .edge .periodic ∧ e.link = .tick) ∨
      (∃ msg len, e = .edge (.message msg len) ∧ e.IsAnswer ∧
        ((EdgeState.CompleteAck msg len ∧ e.link = .ack) ∨
          (¬ EdgeState.CompleteAck msg len ∧ e.link = .answer))) ∨
      (¬ e.IsAnswer ∧ e.link ≠ .tick ∧ e.link ≠ .answer ∧ e.link ≠ .ack) := by
  have hcmd : ∀ {argv num} {l : {num : UInt32 // num ≠ 0} → LinkEvent},
      (∀ n, l n ≠ .tick ∧ l n ≠ .answer ∧ l n ≠ .ack) →
      (if h : CmdAccepts argv num then l ⟨num, h.2.2⟩ else .other) ≠ .tick ∧
        (if h : CmdAccepts argv num then l ⟨num, h.2.2⟩ else .other) ≠ .answer ∧
        (if h : CmdAccepts argv num then l ⟨num, h.2.2⟩ else .other) ≠ .ack := by
    intro argv num l hl
    split_ifs with haccepts
    · exact hl _
    · exact ⟨nofun, nofun, nofun⟩
  cases e with
  | edge e =>
      cases e with
      | periodic => exact Or.inl ⟨rfl, rfl⟩
      | message msg len =>
          by_cases hlen : len < tlvSize
          · have hlink : (OperatedEvent.edge (.message msg len)).link = .other := if_pos hlen
            rw [hlink]
            exact Or.inr (Or.inr ⟨Nat.not_le.mpr hlen, nofun, nofun, nofun⟩)
          · refine Or.inr (Or.inl ⟨msg, len, rfl, Nat.not_lt.mp hlen, ?_⟩)
            by_cases hack : EdgeState.CompleteAck msg len
            · exact Or.inl ⟨hack, (if_neg hlen).trans (if_pos hack)⟩
            · exact Or.inr ⟨hack, (if_neg hlen).trans (if_neg hack)⟩
      | _ => exact Or.inr (Or.inr ⟨id, nofun, nofun, nofun⟩)
  | cmdEdgeHello argv num => exact Or.inr (Or.inr ⟨id, hcmd fun _ => ⟨nofun, nofun, nofun⟩⟩)
  | cmdEdgeTimeout argv num => exact Or.inr (Or.inr ⟨id, hcmd fun _ => ⟨nofun, nofun, nofun⟩⟩)

namespace EdgeState

/-- The front of a tick, on the status and the count. -/
theorem keepAlive_spec (env : Env) (s : EdgeState) :
    (s.keepAlive env).stat.timeout = s.link.nextTimeout ∧
      (s.keepAlive env).ctl =
        { s.ctl with
          status :=
            if s.link.nextTimeout ≥ s.ctl.timeoutNum ∧ s.ctl.status = .online then .offline
            else s.ctl.status } ∧
      (s.keepAlive env).tick = s.tick := by
  have hhello : ∀ s₁ : EdgeState, s₁.ctl = s.ctl → s₁.tick = s.tick →
      s₁.stat.timeout = s.link.nextTimeout →
      let s₂ : EdgeState :=
        if s₁.stat.timeout ≥ s₁.ctl.timeoutNum ∧ s₁.ctl.status = .online then
          { s₁ with ctl := { s₁.ctl with status := .offline } }
        else s₁
      s₂.stat.timeout = s.link.nextTimeout ∧
        s₂.ctl =
          { s.ctl with
            status :=
              if s.link.nextTimeout ≥ s.ctl.timeoutNum ∧ s.ctl.status = .online then .offline
              else s.ctl.status } ∧
        s₂.tick = s.tick := by
    intro s₁ hctl htick htimeout
    rw [htimeout, hctl]
    by_cases hmany : s.link.nextTimeout ≥ s.ctl.timeoutNum ∧ s.ctl.status = .online
    · simp only [if_pos hmany]
      exact ⟨htimeout, trivial, htick⟩
    · simp only [if_neg hmany]
      exact ⟨htimeout, hctl, htick⟩
  apply hhello
  · split
    · unfold mgtSendHelloMsg mgtSendMsg
      simp only
      split <;> rfl
    · rfl
  · split
    · unfold mgtSendHelloMsg mgtSendMsg
      simp only
      split <;> rfl
    · rfl
  · unfold Link.nextTimeout Link.Counts Link.HelloDue
    by_cases hdue : s.tick % s.ctl.helloInterval.toNat = 0
    · unfold mgtSendHelloMsg mgtSendMsg
      by_cases honline : s.ctl.status = .online
      · simp [link, hdue, honline]
      · simp [link, hdue, honline]
    · simp [link, hdue]

theorem link_mgtRcvMsg {s s' : EdgeState} {msg : Buf} {len ret : ℕ}
    (h : (s.mgtRcvMsg msg len).val = some (ret, s')) :
    s'.link = s.link.step (OperatedEvent.link (.edge (.message msg len))) := by
  change s'.link = s.link.step
    (if len < tlvSize then .other else if CompleteAck msg len then .ack else .answer)
  rcases mgtRcvMsg_eq_some h with ⟨hlen, _, rfl⟩ |
    ⟨hlen, ⟨_, hack, rfl⟩ | ⟨_, hack, rfl⟩ | ⟨c, _, hack, hexec⟩⟩
  · rw [if_pos hlen]
    rfl
  · rw [if_neg (Nat.not_lt.mpr hlen), if_neg hack]
    rfl
  · rw [if_neg (Nat.not_lt.mpr hlen), if_pos hack]
    rfl
  · rw [if_neg (Nat.not_lt.mpr hlen), if_neg hack, (sameControl_exec hexec).link]
    rfl

theorem link_doMgtPeriodic {env : Env} {s s' : EdgeState} (h : s.doMgtPeriodic env = some s') :
    s'.link = s.link.step .tick := by
  unfold doMgtPeriodic at h
  split at h
  · cases h
  · obtain ⟨s₁, hage, rfl⟩ := Option.map_eq_some_iff.mp h
    have hsame := sameControl_doDeviceAgeing hage
    obtain ⟨htimeout, hctl, htick⟩ := keepAlive_spec env s.tickClock
    have hlink : { s₁ with tick := s₁.tick + 1 }.link = s.link.step .tick := by
      unfold link Link.step
      rw [hsame.stat, hsame.ctl, hsame.tick, htimeout, hctl, htick]
      rfl
    by_cases hmode : s₁.ctl.upMode = .attrPeriodic
    · simp only [hmode, if_true]
      have hupdate := sameControl_doDeviceUpdate s₁
      rw [← hlink, link, link, hupdate.stat, hupdate.ctl, hupdate.tick]
    · simp only [hmode, if_false]
      exact hlink

/-- Every event moves the connection as the machine says. -/
theorem link_operatedStep {env : Env} {s s' : EdgeState} {e : OperatedEvent}
    (h : s.operatedStep env e = some s') : s'.link = s.link.step e.link := by
  cases e with
  | edge e =>
      cases e with
      | command c => exact (sameControl_exec h).link
      | message msg len =>
          obtain ⟨⟨ret, s₁⟩, hmsg, rfl⟩ := Option.map_eq_some_iff.mp h
          exact link_mgtRcvMsg hmsg
      | packet type module pkt size =>
          obtain ⟨⟨ret, s₁⟩, hpkt, rfl⟩ := Option.map_eq_some_iff.mp h
          exact (sameControl_edgeRcvPkt hpkt).link
      | ageing => exact (sameControl_doDeviceAgeing h).link
      | update =>
          cases h
          exact (sameControl_doDeviceUpdate s).link
      | periodic => exact link_doMgtPeriodic h
  | cmdEdgeHello argv num =>
      cases h
      change (cmdEdgeHello s argv num).link = s.link.step
        (if h : CmdAccepts argv num then .helloInterval ⟨num, h.2.2⟩ else .other)
      rw [cmdEdgeHello, cmdEdgeNum_eq]
      by_cases haccepts : CmdAccepts argv num
      · rw [if_pos haccepts, dif_pos haccepts]
        rfl
      · rw [if_neg haccepts, dif_neg haccepts]
        rfl
  | cmdEdgeTimeout argv num =>
      cases h
      change (cmdEdgeTimeout s argv num).link = s.link.step
        (if h : CmdAccepts argv num then .timeoutNum ⟨num, h.2.2⟩ else .other)
      rw [cmdEdgeTimeout, cmdEdgeNum_eq]
      by_cases haccepts : CmdAccepts argv num
      · rw [if_pos haccepts, dif_pos haccepts]
        rfl
      · rw [if_neg haccepts, dif_neg haccepts]
        rfl

/-- So does a whole run. -/
theorem link_run {env : Env} {s s' : EdgeState} {es : List OperatedEvent}
    (h : run (operatedStep env) s es = some s') :
    s'.link = (es.map OperatedEvent.link).foldl Link.step s.link := by
  induction es generalizing s with
  | nil =>
      cases h
      rfl
  | cons e es ih =>
      obtain ⟨s₁, hs₁, hrest⟩ := run_cons_eq_some h
      rw [ih hrest, link_operatedStep hs₁]
      rfl

/-! ## Whole runs -/

/-- The event sends a Hello. -/
def SendsHello (s : EdgeState) : OperatedEvent → Prop
  | .edge .periodic => s.tick % s.ctl.helloInterval.toNat = 0
  | _ => False

instance (s : EdgeState) (e : OperatedEvent) : Decidable (s.SendsHello e) := by
  cases e with
  | edge e =>
      cases e with
      | periodic => exact inferInstanceAs (Decidable (_ = _))
      | _ => exact .isFalse id
  | _ => exact .isFalse id

/-- How many of the events of a run send a Hello while the edge is online. -/
def hellosOnline (env : Env) : EdgeState → List OperatedEvent → ℕ
  | _, [] => 0
  | s, e :: es =>
      (if s.SendsHello e ∧ s.ctl.status = .online then 1 else 0) +
        match s.operatedStep env e with
        | none => 0
        | some s' => hellosOnline env s' es

theorem sendsHello_iff {s : EdgeState} {e : OperatedEvent} :
    s.SendsHello e ↔ e.link = .tick ∧ s.link.HelloDue := by
  rcases e.link_cases with ⟨rfl, htick⟩ | ⟨msg, len, rfl, _, ⟨_, hack⟩ | ⟨_, hanswer⟩⟩ |
    ⟨_, htick, _⟩
  · exact (and_iff_right rfl).symm
  · rw [hack]
    exact iff_of_false id nofun
  · rw [hanswer]
    exact iff_of_false id nofun
  · refine iff_of_false (fun h => htick ?_) fun h => htick h.1
    cases e with
    | edge e =>
        cases e with
        | periodic => rfl
        | _ => exact h.elim
    | _ => exact h.elim

theorem sendsHello_online_iff {s : EdgeState} {e : OperatedEvent} :
    (s.SendsHello e ∧ s.ctl.status = .online) ↔ e.link = .tick ∧ s.link.Counts := by
  rw [sendsHello_iff, and_assoc]
  exact Iff.rfl

theorem hellosOnline_eq {env : Env} {s s' : EdgeState} {es : List OperatedEvent}
    (h : run (operatedStep env) s es = some s') :
    s.hellosOnline env es = s.link.hellos (es.map OperatedEvent.link) := by
  induction es generalizing s with
  | nil => rfl
  | cons e es ih =>
      obtain ⟨s₁, hs₁, hrest⟩ := run_cons_eq_some h
      rw [hellosOnline, hs₁, List.map_cons, Link.hellos, ← link_operatedStep hs₁, ← ih hrest]
      simp only [sendsHello_online_iff]

/-- A run of `before` and `after`, where the last message arrived at the end of
`before`, if any has arrived. -/
structure SinceAnswer (es before after : List OperatedEvent) : Prop where
  split : es = before ++ after
  answer : before = [] ∨ ∃ es' e, before = es' ++ [e] ∧ e.IsAnswer
  quiet : ∀ e ∈ after, ¬ e.IsAnswer

theorem exists_sinceAnswer (es : List OperatedEvent) :
    ∃ before after, SinceAnswer es before after := by
  induction es using List.reverseRecOn with
  | nil => exact ⟨[], [], rfl, Or.inl rfl, by simp⟩
  | append_singleton es e ih =>
      obtain ⟨before, after, rfl, hbefore, hafter⟩ := ih
      by_cases he : e.IsAnswer
      · exact ⟨before ++ after ++ [e], [], by simp, Or.inr ⟨_, e, rfl, he⟩, by simp⟩
      · refine ⟨before, after ++ [e], by simp, hbefore, fun e' he' => ?_⟩
        rcases List.mem_append.mp he' with he' | he'
        · exact hafter e' he'
        · rwa [List.mem_singleton.mp he']

/-- What holds of the connection after the events `es` from `s₀`. -/
structure ConnectionAfter (env : Env) (s₀ : EdgeState) (es : List OperatedEvent)
    (s : EdgeState) : Prop where
  /-- The remainder by the interval does not trap. -/
  interval : s.ctl.helloInterval ≠ 0
  ticked : ∀ s', s.operatedStep env (.edge .periodic) = some s' →
    s'.ctl.status = .online → s'.stat.timeout < s'.ctl.timeoutNum
  /-- The Hellos sent online since the last message are counted, and the edge
  goes offline only by a tick, when they are as many as the operator allows. -/
  counted : ∃ before after s₁, SinceAnswer es before after ∧
    run (operatedStep env) s₀ before = some s₁ ∧
    s.stat.timeout.toNat = s₁.hellosOnline env after ∧
    ∀ e s', s.operatedStep env e = some s' → s.ctl.status = .online →
      s'.ctl.status = .offline →
      e = .edge .periodic ∧ s.ctl.timeoutNum.toNat ≤ s₁.hellosOnline env (after ++ [e])
  /-- A complete Acknowledge has arrived since the edge was last offline. -/
  online : s.ctl.status = .online → ∃ es₁ msg len es₂ s₁,
    es = es₁ ++ .edge (.message msg len) :: es₂ ∧ CompleteAck msg len ∧
      run (operatedStep env) s₀ (es₁ ++ [.edge (.message msg len)]) = some s₁ ∧
      Throughout (operatedStep env) (fun s => s.ctl.status = .online) s₁ es₂

theorem sound_init (mac : List UInt8) (clock : ℕ → ℕ) : (init mac clock).link.Sound where
  helloInterval := by
    change (240 : UInt32) ≠ 0
    decide
  timeoutNum := by
    change (3 : UInt32) ≠ 0
    decide
  timeout := nofun

theorem sound_run {env : Env} {mac : List UInt8} {clock : ℕ → ℕ} {s : EdgeState}
    {es : List OperatedEvent} (h : run (operatedStep env) (init mac clock) es = some s) :
    s.link.Sound := by
  rw [link_run h]
  exact (sound_init mac clock).foldl _

/-- After a message nothing is counted. -/
theorem timeout_eq_zero_of_answer {env : Env} {s s' : EdgeState} {e : OperatedEvent}
    (he : e.IsAnswer) (h : s.operatedStep env e = some s') : s'.link.timeout = 0 := by
  rw [link_operatedStep h]
  rcases e.link_cases with ⟨rfl, _⟩ | ⟨msg, len, _, _, ⟨_, hack⟩ | ⟨_, hanswer⟩⟩ | ⟨hno, _⟩
  · exact he.elim
  · rw [hack]
    rfl
  · rw [hanswer]
    rfl
  · exact absurd he hno

theorem toNat_timeout_eq {env : Env} {mac : List UInt8} {clock : ℕ → ℕ} {s₁ s : EdgeState}
    {es before after : List OperatedEvent} (hsince : SinceAnswer es before after)
    (hbefore : run (operatedStep env) (init mac clock) before = some s₁)
    (hafter : run (operatedStep env) s₁ after = some s) :
    s.stat.timeout.toNat = s₁.hellosOnline env after := by
  have hzero : s₁.link.timeout = 0 := by
    rcases hsince.answer with rfl | ⟨es', e, rfl, he⟩
    · cases hbefore
      rfl
    · obtain ⟨s₂, _, hlast⟩ := run_append_eq_some hbefore
      exact timeout_eq_zero_of_answer he (by simpa using hlast)
  have hquiet : ∀ l ∈ after.map OperatedEvent.link, l ≠ .answer ∧ l ≠ .ack := by
    intro l hl
    obtain ⟨e, he, rfl⟩ := List.mem_map.mp hl
    rcases e.link_cases with ⟨_, htick⟩ | ⟨_, _, _, hanswer, _⟩ | ⟨_, _, hanswer, hack⟩
    · rw [htick]
      exact ⟨nofun, nofun⟩
    · exact absurd hanswer (hsince.quiet e he)
    · exact ⟨hanswer, hack⟩
  calc s.stat.timeout.toNat
      = s.link.timeout.toNat := rfl
    _ = s₁.link.timeout.toNat + s₁.link.hellos (after.map OperatedEvent.link) := by
        rw [link_run hafter, (sound_run hbefore).toNat_timeout_foldl hquiet]
    _ = s₁.hellosOnline env after := by
        rw [hzero, hellosOnline_eq hafter, UInt32.toNat_zero, Nat.zero_add]

/-- An edge goes offline by a tick whose Hello is one too many. -/
theorem offline_of_operatedStep {env : Env} {mac : List UInt8} {clock : ℕ → ℕ} {s₁ s s' : EdgeState}
    {es before after : List OperatedEvent} {e : OperatedEvent}
    (hsince : SinceAnswer es before after)
    (hbefore : run (operatedStep env) (init mac clock) before = some s₁)
    (hafter : run (operatedStep env) s₁ after = some s)
    (hstep : s.operatedStep env e = some s') (honline : s.ctl.status = .online)
    (hoffline : s'.ctl.status = .offline) :
    e = .edge .periodic ∧ s.ctl.timeoutNum.toNat ≤ s₁.hellosOnline env (after ++ [e]) := by
  have hlink : (s.link.step e.link).status = .offline := link_operatedStep hstep ▸ hoffline
  obtain ⟨htick, hmany⟩ := Link.offline_of_step honline hlink
  have hsound : s.link.Sound := by
    have hrun : run (operatedStep env) (init mac clock) (before ++ after) = some s := by
      rw [run_append, hbefore, Option.bind_some, hafter]
    exact sound_run hrun
  constructor
  · rcases e.link_cases with ⟨he, _⟩ | ⟨_, _, _, _, ⟨_, hack⟩ | ⟨_, hanswer⟩⟩ | ⟨_, hno, _⟩
    · exact he
    · exact nomatch hack.symm.trans htick
    · exact nomatch hanswer.symm.trans htick
    · exact absurd htick hno
  · have hrun : run (operatedStep env) s₁ (after ++ [e]) = some s' := by
      rw [run_append, hafter, Option.bind_some, run_cons, hstep]
      rfl
    have hcount := toNat_timeout_eq hsince hbefore hafter
    calc s.ctl.timeoutNum.toNat
        ≤ s.link.nextTimeout.toNat := UInt32.le_iff_toNat_le.mp hmany
      _ = s₁.hellosOnline env after + if s.link.Counts then 1 else 0 := by
          rw [hsound.toNat_nextTimeout, ← hcount]
          rfl
      _ = s₁.hellosOnline env (after ++ [e]) := by
          rw [hellosOnline_eq hrun, hellosOnline_eq hafter, List.map_append, List.map_singleton,
            Link.hellos_append, ← link_run hafter, htick]
          simp only [true_and]

theorem exists_ack_of_online {env : Env} {mac : List UInt8} {clock : ℕ → ℕ} {s : EdgeState}
    {es : List OperatedEvent} (hrun : run (operatedStep env) (init mac clock) es = some s)
    (honline : s.ctl.status = .online) :
    ∃ es₁ msg len es₂ s₁, es = es₁ ++ .edge (.message msg len) :: es₂ ∧ CompleteAck msg len ∧
      run (operatedStep env) (init mac clock) (es₁ ++ [.edge (.message msg len)]) = some s₁ ∧
      Throughout (operatedStep env) (fun s => s.ctl.status = .online) s₁ es₂ := by
  have hstep : ∀ s e s', operatedStep env s e = some s' → s'.ctl.status = .online →
      ¬ (∃ msg len, e = .edge (.message msg len) ∧ CompleteAck msg len) →
      s.ctl.status = .online := by
    intro s e s' hs' honline' hno
    have hlink : (s.link.step e.link).status = .online := link_operatedStep hs' ▸ honline'
    refine Link.online_of_step hlink fun hack => ?_
    rcases e.link_cases with ⟨_, htick⟩ | ⟨msg, len, he, _, ⟨hcomplete, _⟩ | ⟨_, hanswer⟩⟩ |
      ⟨_, _, _, hother⟩
    · exact nomatch htick.symm.trans hack
    · exact hno ⟨msg, len, he, hcomplete⟩
    · exact nomatch hanswer.symm.trans hack
    · exact hother hack
  have hstart : ¬ (init mac clock).ctl.status = .online := nofun
  obtain ⟨es₁, e, es₂, s₁, hes, ⟨msg, len, rfl, hcomplete⟩, hrun₁, _, hthrough⟩ :=
    exists_last_event (I := fun s : EdgeState => s.ctl.status = .online) hstep hstart hrun honline
  exact ⟨es₁, msg, len, es₂, s₁, hes, hcomplete, hrun₁, hthrough⟩

/-- However ticks, messages, packets and the commands of the operator follow
each other, the connection is as described. -/
theorem connectionAfter_run {env : Env} {mac : List UInt8} {clock : ℕ → ℕ} {s : EdgeState}
    {es : List OperatedEvent} (hrun : run (operatedStep env) (init mac clock) es = some s) :
    ConnectionAfter env (init mac clock) es s where
  interval := (sound_run hrun).helloInterval
  ticked s' hs' honline := by
    have hlink : s'.link = s.link.step .tick := link_operatedStep hs'
    have hlt : (s.link.step .tick).timeout < (s.link.step .tick).timeoutNum :=
      Link.lt_of_step_tick (hlink ▸ honline)
    rwa [← hlink] at hlt
  counted := by
    obtain ⟨before, after, hsince⟩ := exists_sinceAnswer es
    obtain ⟨s₁, hbefore, hafter⟩ := run_append_eq_some (hsince.split ▸ hrun)
    exact ⟨before, after, s₁, hsince, hbefore, toNat_timeout_eq hsince hbefore hafter,
      fun _ _ hstep honline hoffline =>
        offline_of_operatedStep hsince hbefore hafter hstep honline hoffline⟩
  online := exists_ack_of_online hrun

end EdgeState

/-- An Acknowledge with a control block of zeros. -/
def ackMessage : OperatedEvent :=
  .edge (.message (Buf.ofBytes (tlvBytes .ack (List.replicate mgtControlSize 0)))
    (tlvSize + mgtControlSize))

theorem connectionAfter_ack_tick :
    ∃ s, run (EdgeState.operatedStep Env.plain) (EdgeState.init [] fun _ => 0)
        [ackMessage, .edge .periodic] = some s ∧
      EdgeState.ConnectionAfter Env.plain (EdgeState.init [] fun _ => 0)
        [ackMessage, .edge .periodic] s := by
  have heval : (run (EdgeState.operatedStep Env.plain) (EdgeState.init [] fun _ => 0)
      [ackMessage, .edge .periodic]).isSome = true := by
    decide +kernel
  obtain ⟨s, hrun⟩ := Option.isSome_iff_exists.mp heval
  exact ⟨s, hrun, EdgeState.connectionAfter_run hrun⟩

end EceLib
