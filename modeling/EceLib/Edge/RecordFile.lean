import EceLib.Edge.Config
import EceLib.Support.Stream

/-!
# The record file

`record_g1_pkt` appends a header and the packet to a file and sets the stream
back to the start when the file has reached its size.  The stream is closed
right after that and opened in append mode for the next packet, so the file
keeps growing.
-/

namespace EceLib

open Support

/-! ## One record -/

/-- `G1_PKT_FILE_SIZE`. -/
def g1PktFileSize : ℕ := 2 * 1024 * 1024

/-- `sizeof(struct g1_pkt_in_file)`. -/
def g1PktInFileSize : ℕ := 20

/-- The header of a record, with the pointer that is never set. -/
def g1PktInFile (env : Env) (type : UInt32) (module size : UInt64) : List UInt8 :=
  be32Bytes module.toUInt32 ++ be32Bytes type ++ be32Bytes size.toUInt32
    ++ (List.range 8).map env.uninit

theorem length_g1PktInFile (env : Env) (type : UInt32) (module size : UInt64) :
    (g1PktInFile env type module size).length = g1PktInFileSize := by
  simp [g1PktInFile, g1PktInFileSize]

/-- What `record_g1_pkt` makes of the file. -/
def appendRecord (file header pkt : List UInt8) : List UInt8 :=
  let fp := Stream.openAppend file
  let fp := fp.fwrite header
  let fp := fp.fwrite pkt
  let fp := if g1PktFileSize ≤ fp.ftell then fp.rewind else fp
  fp.fclose

/-- Whether the stream is set back makes no difference. -/
theorem appendRecord_eq (file header pkt : List UInt8) :
    appendRecord file header pkt = file ++ header ++ pkt := by
  simp only [appendRecord]
  split
  · simp
  · simp

namespace EdgeState

theorem pktFile_recordG1Pkt (env : Env) (s : EdgeState) (type : UInt32) (module : UInt64)
    (pkt : Buf) (size : UInt64) :
    (s.recordG1Pkt env type module pkt size).pktFile =
      appendRecord s.pktFile (g1PktInFile env type module size) (pkt.bytes 0 size.toNat) := by
  rw [appendRecord_eq]
  rfl

/-! ## The file in a run -/

/-- A packet of this size is recorded. -/
def Records (s : EdgeState) (size : UInt64) : Prop :=
  s.ctl.function = edgeFuncOn ∧ size ≠ 0 ∧ s.ctl.pktRecord = edgeFuncOn

instance (s : EdgeState) (size : UInt64) : Decidable (s.Records size) :=
  inferInstanceAs (Decidable (_ ∧ _ ∧ _))

/-- The length of the record of an event, if it is a packet that is recorded. -/
def record (s : EdgeState) : Event → List ℕ
  | .packet _ _ _ size => if s.Records size then [g1PktInFileSize + size.toNat] else []
  | _ => []

/-- The lengths of the records of a run. -/
def records (env : Env) : EdgeState → List Event → List ℕ
  | _, [] => []
  | s, e :: es => s.record e ++ ((s.step env e).map fun s' => records env s' es).getD []

theorem pktFile_received (env : Env) (s : EdgeState) (type : UInt32) (module : UInt64)
    (pkt : Buf) (size : UInt64) :
    (s.received env type module pkt size).pktFile.length =
      s.pktFile.length +
        if s.ctl.pktRecord = edgeFuncOn then g1PktInFileSize + size.toNat else 0 := by
  unfold received
  by_cases hrecord : s.ctl.pktRecord = edgeFuncOn
  · rw [if_pos hrecord, if_pos hrecord]
    change (s.recordG1Pkt env type module pkt size).pktFile.length = _
    rw [pktFile_recordG1Pkt, appendRecord_eq, List.length_append, List.length_append,
      length_g1PktInFile, Buf.length_bytes]
    omega
  · rw [if_neg hrecord, if_neg hrecord]
    rfl

theorem pktFile_parseG1Pkt {env : Env} {s : EdgeState} {type : UInt32} {pkt : Buf}
    {size : UInt64} {r : ℕ × EdgeState} (h : (s.parseG1Pkt env type pkt size).val = some r) :
    r.2.pktFile = s.pktFile := by
  rcases parseG1Pkt_cases h with hs | ⟨dev, s₁, dev₁, _, _, hsteps, hs⟩
  · rw [hs]
  · obtain ⟨⟨k, out, rfl⟩, _⟩ := hsteps.frame
    rw [hs]
    rfl

theorem pktFile_edgeRcvPkt {env : Env} {s s' : EdgeState} {type : UInt32} {module : UInt64}
    {pkt : Buf} {size : UInt64} {ret : ℕ}
    (h : (s.edgeRcvPkt env type module pkt size).val = some (ret, s')) :
    s'.pktFile.length =
      s.pktFile.length + (s.record (.packet type module pkt size)).sum := by
  by_cases hon : s.ctl.function = edgeFuncOn
  · by_cases hsize : size = 0
    · simp only [edgeRcvPkt, hon, hsize, ne_eq, not_true_eq_false, if_true, if_false,
        Traced.val_pure, Option.some.injEq, Prod.mk.injEq] at h
      rw [← h.2]
      simp [record, Records, hsize]
    · rw [val_edgeRcvPkt env type module pkt hon hsize, Option.map_eq_some_iff] at h
      obtain ⟨r, hparse, hanswer⟩ := h
      obtain ⟨msgs, _, hout⟩ := answer_snd env module pkt size r
      rw [hanswer] at hout
      have hfile : s'.pktFile = r.2.pktFile := by rw [show s' = _ from hout]
      rw [hfile, pktFile_parseG1Pkt hparse, pktFile_received]
      by_cases hrecord : s.ctl.pktRecord = edgeFuncOn
      · simp [record, Records, hon, hsize, hrecord]
      · simp [record, Records, hrecord]
  · simp only [edgeRcvPkt, hon, ne_eq, not_false_eq_true, if_true, Traced.val_pure,
      Option.some.injEq, Prod.mk.injEq] at h
    rw [← h.2]
    simp [record, Records, hon]

theorem pktFile_delDevInternal {s s' : EdgeState} {dev : Dev}
    (h : s.delDevInternal dev = some s') : s'.pktFile = s.pktFile := by
  unfold delDevInternal at h
  cases hpdt : s.deref dev.pdt with
  | none => simp [hpdt] at h
  | some pdt =>
      simp only [hpdt, Option.some.injEq] at h
      rw [← h]

theorem pktFile_exec {s s' : EdgeState} {c : Command} (h : (c.exec s).val = some s') :
    s'.pktFile = s.pktFile := by
  by_cases hc : c.IsDevice
  · cases c with
    | addDevice addr len linkType module topic =>
        simp only [Command.exec, Traced.val_bind, Option.bind_eq_some_iff, Traced.val_pure] at h
        obtain ⟨⟨dev, s₁⟩, hadd, heq⟩ := h
        cases heq
        rcases addDev_cases hadd with rfl | ⟨pdt, _, _, _, rfl⟩
        · rfl
        · unfold addDevInternal
          split
          · rfl
          · rfl
    | delDevice addr len linkType =>
        rcases delDev_cases h with rfl | ⟨dev, _, hdel⟩
        · rfl
        · exact pktFile_delDevInternal hdel
    | _ => exact hc.elim
  · obtain ⟨attrs, pdts, next, rfl⟩ := Command.exec_frame h hc
    rfl

theorem pktFile_doDeviceAgeing {s s' : EdgeState} (h : s.doDeviceAgeing = some s') :
    s'.pktFile = s.pktFile := by
  unfold doDeviceAgeing at h
  simp only at h
  split at h
  · cases h
    rfl
  · split at h
    · obtain ⟨s₁, hscan, rfl⟩ := Option.map_eq_some_iff.mp h
      have hsame : s₁.pktFile = s.tickClock.pktFile :=
        ageScan_rel (R := fun s s' => s'.pktFile = s.pktFile) (fun _ => rfl)
          (fun _ _ _ h₁ h₂ => h₂.trans h₁)
          (fun _ _ _ _ _ hdel => pktFile_delDevInternal hdel) hscan
      exact hsame
    · cases h
      rfl

theorem pktFile_doDeviceUpdate (s : EdgeState) : s.doDeviceUpdate.pktFile = s.pktFile := by
  rcases doDeviceUpdate_cases s with ⟨last, _, h⟩ | ⟨gDevMap, out, _, _, h, _⟩
  · rw [h]
    rfl
  · rw [h]
    rfl

theorem ControlStep.pktFile {s s' : EdgeState} (h : ControlStep s s') :
    s'.pktFile = s.pktFile := by
  obtain ⟨k, ctl, stat, tick, msgs, _, _, _, rfl⟩ := h
  rfl

/-- The file grows by the record of the event and by nothing else. -/
theorem pktFile_step {env : Env} {s s' : EdgeState} {e : Event}
    (h : s.step env e = some s') :
    s'.pktFile.length = s.pktFile.length + (s.record e).sum := by
  cases e with
  | packet type module pkt size =>
      obtain ⟨⟨ret, s₁⟩, hpkt, rfl⟩ := Option.map_eq_some_iff.mp h
      exact pktFile_edgeRcvPkt hpkt
  | command c => exact congrArg List.length (pktFile_exec h)
  | message msg len =>
      obtain ⟨⟨ret, s₁⟩, hmsg, rfl⟩ := Option.map_eq_some_iff.mp h
      rcases mgtRcvMsg_cases hmsg with ⟨_, hctl⟩ | ⟨c, stat, _, hexec⟩
      · exact congrArg List.length hctl.pktFile
      · have hfile := pktFile_exec hexec
        exact congrArg List.length hfile
  | ageing => exact congrArg List.length (pktFile_doDeviceAgeing h)
  | update =>
      cases h
      exact congrArg List.length (pktFile_doDeviceUpdate s)
  | periodic =>
      obtain ⟨s₁, s₂, hctl, hage, hrest⟩ := doMgtPeriodic_cases h
      have hs₂ : s₂.pktFile = s.pktFile := (pktFile_doDeviceAgeing hage).trans hctl.pktFile
      rcases hrest with hctl₂ | hctl₂
      · exact congrArg List.length (hctl₂.pktFile.trans hs₂)
      · have hupdate := hctl₂.pktFile.trans (pktFile_doDeviceUpdate s₂)
        exact congrArg List.length (hupdate.trans hs₂)

theorem records_cons {env : Env} {s s₁ : EdgeState} {e : Event} (h : s.step env e = some s₁)
    (es : List Event) : s.records env (e :: es) = s.record e ++ s₁.records env es := by
  rw [records, h]
  rfl

theorem records_append {env : Env} {s s₁ : EdgeState} {es : List Event}
    (h : run (EdgeState.step env) s es = some s₁) (fs : List Event) :
    s.records env (es ++ fs) = s.records env es ++ s₁.records env fs := by
  induction es generalizing s with
  | nil =>
      cases h
      rfl
  | cons e es ih =>
      obtain ⟨s₂, hstep, hrun⟩ := run_cons_eq_some h
      rw [List.cons_append, records_cons hstep, records_cons hstep, ih hrun, List.append_assoc]

/-- The file after a run. -/
theorem pktFile_run {env : Env} {s s' : EdgeState} {es : List Event}
    (h : run (EdgeState.step env) s es = some s') :
    s'.pktFile.length = s.pktFile.length + (s.records env es).sum := by
  induction es generalizing s with
  | nil =>
      cases h
      rfl
  | cons e es ih =>
      obtain ⟨s₁, hstep, hrun⟩ := run_cons_eq_some h
      rw [ih hrun, pktFile_step hstep, records_cons hstep, List.sum_append]
      omega

end EdgeState

/-! ## The bound -/

/-- The length of the longest record. -/
def longest (records : List ℕ) : ℕ := records.foldr max 0

theorem longest_append (l r : List ℕ) : longest (l ++ r) = max (longest l) (longest r) := by
  induction l with
  | nil => exact (Nat.zero_max (longest r)).symm
  | cons n l ih =>
      rw [List.cons_append, longest, List.foldr_cons]
      change max n (longest (l ++ r)) = max (max n (longest l)) (longest r)
      rw [ih, max_assoc]

theorem longest_le_sum (l : List ℕ) : longest l ≤ l.sum := by
  induction l with
  | nil => exact le_rfl
  | cons n l ih =>
      change max n (longest l) ≤ _
      rw [List.sum_cons]
      omega

/-- In no state of the run is the file longer than its size and the longest
record written so far. -/
def FileBounded (env : Env) (s : EdgeState) (es : List Event) : Prop :=
  ∀ fs, fs <+: es → ∀ s', run (EdgeState.step env) s fs = some s' →
    s'.pktFile.length ≤ g1PktFileSize + longest (s.records env fs)

/-- The file stays bounded in a run exactly if what was in it and all records
of the run fit, the longest one not counted. -/
theorem fileBounded_iff {env : Env} {s s' : EdgeState} {es : List Event}
    (hrun : run (EdgeState.step env) s es = some s') :
    FileBounded env s es ↔
      s.pktFile.length + (s.records env es).sum ≤
        g1PktFileSize + longest (s.records env es) := by
  constructor
  · intro h
    rw [← EdgeState.pktFile_run hrun]
    exact h es (List.prefix_refl es) s' hrun
  · rintro h fs ⟨gs, rfl⟩ s₁ hfs
    have hrest := longest_le_sum (s₁.records env gs)
    rw [EdgeState.records_append hfs, List.sum_append, longest_append] at h
    rw [EdgeState.pktFile_run hfs]
    omega

/-! ## Packets that are only recorded -/

/-- The edge after `edge_init`, with recording switched on. -/
def recordingEdge : EdgeState :=
  let s := EdgeState.init [] fun _ => 0
  { s with ctl := { s.ctl with pktRecord := edgeFuncOn } }

/-- A packet of 236 bytes with an address control byte of no known format. -/
def recordedPkt : Event := .packet 0 0 (Buf.ofBytes (List.replicate 236 0xFF)) 236

theorem step_recordedPkt (env : Env) {s : EdgeState}
    (hctl : s.ctl = recordingEdge.ctl) :
    ∃ s', s.step env recordedPkt = some s' ∧ s'.ctl = recordingEdge.ctl := by
  have hon : s.ctl.function = edgeFuncOn := by rw [hctl]; rfl
  have haddr : (pktAddress (Buf.ofBytes (List.replicate 236 0xFF)) 236).1 = 0 := by
    decide +kernel
  obtain ⟨file, hfile⟩ :=
    EdgeState.received_eq env s 0 0 (Buf.ofBytes (List.replicate 236 0xFF)) 236
  refine ⟨{ s.advance 1 with pktFile := file }, ?_, hctl⟩
  rw [recordedPkt, EdgeState.step, EdgeState.val_edgeRcvPkt env 0 0 _ hon (by decide),
    EdgeState.val_parseG1Pkt, if_pos haddr, hfile]
  have hmode : (s.advance 1).ctl.upMode = .attrPeriodic := by
    change s.ctl.upMode = _
    rw [hctl]
    rfl
  simp [EdgeState.answer, G1ProcessStatus.code, hmode]

/-- Any number of these packets. -/
theorem run_recordedPkt (env : Env) (n : ℕ) {s : EdgeState} (hctl : s.ctl = recordingEdge.ctl) :
    ∃ s', run (EdgeState.step env) s (List.replicate n recordedPkt) = some s' ∧
      s.records env (List.replicate n recordedPkt) = List.replicate n 256 := by
  induction n generalizing s with
  | zero => exact ⟨s, rfl, rfl⟩
  | succ n ih =>
      obtain ⟨s₁, hstep, hctl₁⟩ := step_recordedPkt env hctl
      obtain ⟨s', hrun, hrecords⟩ := ih hctl₁
      have hrecord : s.record recordedPkt = [256] := by
        have hrec : s.Records 236 := by
          rw [EdgeState.Records, hctl]
          exact ⟨rfl, by decide, rfl⟩
        rw [recordedPkt, EdgeState.record, if_pos hrec]
        rfl
      refine ⟨s', ?_, ?_⟩
      · rw [List.replicate_succ, run_cons, hstep]
        exact hrun
      · rw [List.replicate_succ, EdgeState.records_cons hstep, hrecord, hrecords]
        rfl

theorem longest_replicate (n k : ℕ) : longest (List.replicate (n + 1) k) = k := by
  induction n with
  | zero => exact Nat.max_zero k
  | succ n ih =>
      change max k (longest (List.replicate (n + 1) k)) = k
      rw [ih, max_self]

/-- With 8193 records of 256 bytes the file is as long as it may be. -/
theorem fileBounded_of_full :
    ∃ n, n = 8193 ∧
      ∃ s', run (EdgeState.step Env.plain) recordingEdge (List.replicate n recordedPkt) =
          some s' ∧
        FileBounded Env.plain recordingEdge (List.replicate n recordedPkt) := by
  obtain ⟨k, hk⟩ : ∃ k, k = 8192 := ⟨_, rfl⟩
  obtain ⟨s', hrun, hrecords⟩ := run_recordedPkt Env.plain (k + 1) (s := recordingEdge) rfl
  have hempty : recordingEdge.pktFile.length = 0 := rfl
  refine ⟨k + 1, by omega, s', hrun, (fileBounded_iff hrun).mpr ?_⟩
  rw [hrecords, List.sum_replicate_nat, longest_replicate, hempty, g1PktFileSize]
  omega

/-- Only so many of these packets leave the file bounded. -/
theorem fileBounded_recordedPkt (env : Env) (n : ℕ) :
    (∃ s', run (EdgeState.step env) recordingEdge (List.replicate (n + 1) recordedPkt) =
        some s') ∧
      (FileBounded env recordingEdge (List.replicate (n + 1) recordedPkt) →
        n * 256 ≤ g1PktFileSize) := by
  obtain ⟨s', hrun, hrecords⟩ := run_recordedPkt env (n + 1) (s := recordingEdge) rfl
  refine ⟨⟨s', hrun⟩, fun h => ?_⟩
  have hall := h _ (List.prefix_refl _) s' hrun
  have hempty : recordingEdge.pktFile.length = 0 := rfl
  rw [EdgeState.pktFile_run hrun, hrecords, List.sum_replicate_nat, longest_replicate,
    hempty] at hall
  omega

/-- With 8194 records of 256 bytes the file is longer than its size and one
record. -/
theorem fileBounded_fails_of_many :
    ¬ ∀ (env : Env) (s s' : EdgeState) (es : List Event),
      run (EdgeState.step env) s es = some s' → s.pktFile = [] → FileBounded env s es := by
  intro h
  obtain ⟨⟨s', hrun⟩, hmany⟩ := fileBounded_recordedPkt Env.plain 8193
  have hbounded := hmany (h _ _ _ _ hrun rfl)
  rw [g1PktFileSize] at hbounded
  omega

end EceLib
