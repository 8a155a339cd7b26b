import EceLib.Support.CText
import EceLib.Edge.Accesses
import EceLib.Edge.AddressLevels

/-!
# The log lines of the decoder

`parse_g1_pkt` prints the levels of the address, and `parse_msg` the payload,
into an array of 256 bytes, one byte after the other.  An access to the array in
the model of the reception stands for all appends of one line.
-/

namespace EceLib

open Support

/-! ## One line -/

/-- What `sprintf` appends for a byte with `"%s %2.2x"` or `"%s-%2.2x"`. -/
def logByte (sep b : UInt8) : List UInt8 :=
  sep :: (hexByte b).map fun c => UInt8.ofNat c.toNat

/-- The line of some bytes, in an array of which `cleared` bytes have been set
to zero. -/
def logLine (sep : UInt8) (cleared : ℕ) (log data : List UInt8) : Traced Buffer (List UInt8) :=
  appendTexts .log (clearFront log cleared) (data.map (logByte sep))

/-- The separator and `memset` of a line: `parse_msg` clears `sizeof(256)`
bytes, `parse_g1_pkt` the whole array. -/
def logFormats : List (UInt8 × ℕ) := [(0x20, 4), (0x2D, logSize)]

/-- Whatever is in the array, the line is built inside it and is just the text of
the bytes. -/
def LineFits (data : List UInt8) : Prop :=
  ∀ sep cleared, (sep, cleared) ∈ logFormats → ∀ log : List UInt8, log.length = logSize →
    (logLine sep cleared log data).Each Access.InBounds ∧
      ∃ log', (logLine sep cleared log data).val = some log' ∧
        textOf log' = data.flatMap (logByte sep)

theorem logFormats_spec {sep : UInt8} {cleared : ℕ} (h : (sep, cleared) ∈ logFormats) :
    sep ≠ 0 ∧ 0 < cleared := by
  have hall : ∀ f ∈ logFormats, f.1 ≠ 0 ∧ 0 < f.2 := by decide
  exact hall _ h

theorem logByte_ne_zero {sep : UInt8} (hsep : sep ≠ 0) (b : UInt8) :
    ∀ c ∈ logByte sep b, c ≠ 0 := by
  have hdigit : ∀ n < 16, UInt8.ofNat (hexDigit n).toNat ≠ 0 := by decide
  have hb := b.toNat_lt
  intro c hc
  simp only [logByte, hexByte, List.map_cons, List.map_nil, List.mem_cons, List.not_mem_nil,
    or_false] at hc
  rcases hc with rfl | rfl | rfl
  · exact hsep
  · exact hdigit _ (by omega)
  · exact hdigit _ (by omega)

theorem length_flatten_logByte (sep : UInt8) (data : List UInt8) :
    (data.map (logByte sep)).flatten.length = 3 * data.length := by
  induction data with
  | nil => rfl
  | cons b data ih =>
      rw [List.map_cons, List.flatten_cons, List.length_append, ih, List.length_cons]
      simp only [logByte, hexByte, List.map_cons, List.map_nil, List.length_cons, List.length_nil]
      omega

/-- A line has three characters for each byte, and a terminator. -/
theorem lineFits_iff (data : List UInt8) : LineFits data ↔ 3 * data.length + 1 ≤ logSize := by
  have hiff : ∀ sep cleared, (sep, cleared) ∈ logFormats → ∀ log : List UInt8,
      log.length = logSize →
        ((logLine sep cleared log data).Each Access.InBounds ↔ 3 * data.length + 1 ≤ logSize) ∧
        (3 * data.length + 1 ≤ logSize →
          ∃ log', (logLine sep cleared log data).val = some log' ∧
            textOf log' = data.flatMap (logByte sep)) := by
    intro sep cleared hformat log hlog
    obtain ⟨hsep, hcleared⟩ := logFormats_spec hformat
    have hpos : 0 < log.length := by
      rw [hlog]
      decide
    have hempty := textOf_clearFront hcleared hpos
    have hsize : (clearFront log cleared).length = logSize := by
      rw [clearFront, length_overwrite, hlog]
    have htails : ∀ tail ∈ data.map (logByte sep), ∀ c ∈ tail, c ≠ 0 := by
      intro tail htail
      obtain ⟨b, _, rfl⟩ := List.mem_map.mp htail
      exact logByte_ne_zero hsep b
    have htext : (textOf (clearFront log cleared)).length +
        (data.map (logByte sep)).flatten.length = 3 * data.length := by
      rw [hempty, length_flatten_logByte, List.length_nil, Nat.zero_add]
    constructor
    · have hterminated : (textOf (clearFront log cleared)).length <
          (clearFront log cleared).length := by
        rw [hempty, hsize]
        decide
      rw [logLine, each_appendTexts_iff Buffer.log htails hterminated, htext, hsize]
    · intro hfits
      obtain ⟨log', hval, htext⟩ := val_appendTexts Buffer.log htails
        (by rw [htext, hsize]; exact hfits)
      refine ⟨log', hval, ?_⟩
      rw [htext, hempty, List.nil_append, List.flatMap_def]
  constructor
  · intro h
    have hlog : (List.replicate logSize (0 : UInt8)).length = logSize := List.length_replicate
    have hpayload : ((0x20 : UInt8), 4) ∈ logFormats := by decide
    exact (hiff _ _ hpayload _ hlog).1.mp (h _ _ hpayload _ hlog).1
  · intro hfits sep cleared hformat log hlog
    obtain ⟨heach, hval⟩ := hiff sep cleared hformat log hlog
    exact ⟨heach.mpr hfits, hval hfits⟩

/-! ## The lines of a reception -/

/-- An access to the array stands for a line of some number of bytes, and every
line of that many bytes is built inside it. -/
def InLog (a : Access Buffer) : Prop :=
  a.buf = .log → ∃ n, a.len = 3 * n + 1 ∧ ∀ data : List UInt8, data.length = n → LineFits data

theorem inLog_iff (n : ℕ) : InLog ⟨.log, 0, 3 * n + 1, logSize⟩ ↔ 3 * n + 1 ≤ logSize := by
  constructor
  · intro h
    obtain ⟨m, hm, hlines⟩ := h rfl
    have hline := hlines (List.replicate m 0) List.length_replicate
    rw [lineFits_iff, List.length_replicate] at hline
    exact hm.le.trans hline
  · intro hfits _
    refine ⟨n, rfl, fun data hdata => ?_⟩
    rw [lineFits_iff, hdata]
    exact hfits

theorem onlyOf_inLog : OnlyOf [.log] InLog := by
  intro a ha hlog
  exact absurd (hlog ▸ List.mem_singleton.mpr rfl) ha

/-- No level of an address has more than 20 bytes. -/
theorem ctrlLen_le (addrCtrl : UInt8) :
    ctrlH1Len addrCtrl ≤ 20 ∧ ctrlH2Len addrCtrl ≤ 20 ∧ ctrlH3Len addrCtrl ≤ 20 := by
  have hget : ∀ l : List ℕ, (∀ n ∈ l, n ≤ 20) → ∀ i, l.getD i 0 ≤ 20 := by
    intro l hl i
    rw [List.getD_eq_getElem?_getD]
    cases hi : l[i]? with
    | none => exact Nat.zero_le 20
    | some n => exact hl n (List.mem_of_getElem? hi)
  exact ⟨hget h1LenTbl (by decide) _, hget h2LenTbl (by decide) _, hget h3LenTbl (by decide) _⟩

/-- What is read and printed for the levels of an address. -/
theorem each_logLevels_ctrlInfo {P : Access Buffer → Prop} (hpkt : ∀ a, a.buf = .pkt → P a)
    (hlog : ∀ n ≤ 20, P ⟨.log, 0, 3 * n + 1, logSize⟩) (pkt : Buf) (addrCtrl : UInt8)
    (addr : ℕ) : (EdgeState.logLevels pkt (ctrlInfo addrCtrl addr)).Each P := by
  have hlevel : ∀ (h : Option ℕ) (len : ℕ), len ≤ 20 → (EdgeState.logAddr pkt h len).Each P := by
    intro h len hlen
    cases h with
    | none => exact Traced.each_stop
    | some pos =>
        rw [EdgeState.logAddr, Traced.each_touch_bind, Traced.each_touch]
        exact ⟨hpkt _ rfl, hlog len hlen⟩
  obtain ⟨h1, h2, h3⟩ := ctrlLen_le addrCtrl
  exact each_logLevels (hlevel _ _ h1) (fun _ => hlevel _ _ h2) fun _ => hlevel _ _ h3

theorem inLog_logLevels (pkt : Buf) (addrCtrl : UInt8) (addr : ℕ) :
    (EdgeState.logLevels pkt (ctrlInfo addrCtrl addr)).Each InLog := by
  refine each_logLevels_ctrlInfo (fun a ha => onlyOf_inLog a (by simp [ha])) (fun n hn => ?_) _ _ _
  rw [inLog_iff]
  simp only [logSize]
  omega

namespace EdgeState

/-- A packet gets to `parse_msg` with the header of its message: its address is
accepted and prints, and its device is found. -/
structure ReachesMsg (s : EdgeState) (type : UInt32) (pkt : Buf) (size : UInt64) : Prop where
  on : s.ctl.function = edgeFuncOn
  nonempty : size ≠ 0
  accepted : (pktAddress pkt size).1 ≠ 0
  levels : ¬ (pktAddress pkt size).2.Gap
  device : (s.gDevMap.get (pktOid type pkt size)).isSome
  header : g1MsgSize ≤ (pktMsgSize pkt size).toNat

theorem inLog_parseMsg_iff (env : Env) (s : EdgeState) (dev : Dev) (pkt : Buf) (size : UInt64) :
    (s.parseMsg env dev pkt size).Each InLog ↔
      (g1MsgSize ≤ size.toNat → msgPayloadLen pkt size ≤ 85) := by
  have hfits : 3 * msgPayloadLen pkt size + 1 ≤ logSize ↔ msgPayloadLen pkt size ≤ 85 := by
    simp only [logSize]
    omega
  rw [each_parseMsg_iff]
  refine imp_congr_right fun _ => ?_
  rw [inLog_iff, hfits]
  constructor
  · exact fun h => h.2.2.1
  · intro h
    refine ⟨onlyOf_inLog _ (by simp), onlyOf_inLog _ (by simp), h, fun pdt _ fmt _ =>
      ⟨onlyOf_inLog.each (touches_tokenLoop _ _ _ _ _) (by simp), fun r _ =>
        onlyOf_inLog.each (touches_checkRuleEngine env _ _) (by simp)⟩⟩

/-- The log lines of a reception fit their buffers exactly if the payload has at
most 85 bytes, whenever it is printed. -/
theorem inLog_edgeRcvPkt_iff (env : Env) (s : EdgeState) (type : UInt32) (module : UInt64)
    (pkt : Buf) (size : UInt64) :
    (s.edgeRcvPkt env type module pkt size).Each InLog ↔
      (s.ReachesMsg type pkt size →
        msgPayloadLen (pktMsg pkt size) (pktMsgSize pkt size) ≤ 85) := by
  obtain ⟨file, hfile⟩ := received_eq env s type module pkt size
  have hdevs : (s.received env type module pkt size).gDevMap = s.gDevMap := by rw [hfile]; rfl
  rw [each_edgeRcvPkt_iff]
  constructor
  · intro h hreach
    obtain ⟨hparse, _⟩ := h hreach.on hreach.nonempty
    obtain ⟨dev, hdev⟩ := Option.isSome_iff_exists.mp hreach.device
    have hmsg := ((((each_parseG1Pkt_iff env _ type pkt size).mp hparse).2 hreach.accepted).2
      hreach.levels).2 dev (hdevs ▸ hdev)
    exact (inLog_parseMsg_iff env _ _ _ _).mp hmsg hreach.header
  · intro h hon hsize
    refine ⟨(each_parseG1Pkt_iff env _ type pkt size).mpr
      ⟨onlyOf_inLog _ (by simp), fun hl => ⟨?_, fun hgap => ⟨?_, fun dev hdev => ?_⟩⟩⟩,
      fun _ _ _ => ⟨onlyOf_inLog _ (by simp), onlyOf_inLog _ (by simp)⟩⟩
    · rw [pktAddress_of_ne_zero hl]
      exact inLog_logLevels pkt _ _
    · exact onlyOf_inLog.each (touches_getDev _ _ _ _) (by simp)
    · rw [inLog_parseMsg_iff]
      intro hheader
      have hdev₀ : s.gDevMap.get (pktOid type pkt size) = some dev := hdevs ▸ hdev
      exact h ⟨hon, hsize, hl, hgap, Option.isSome_iff_exists.mpr ⟨dev, hdev₀⟩, hheader⟩

end EdgeState

/-- A product and a device. -/
def logRun : List Event :=
  [.command (.addProduct 5 1),
    .command (.addDevice (Buf.ofBytes (List.replicate mgtAddrSize 1)) 6 0 0 5)]

/-- A packet of the device with a payload of 86 bytes. -/
def logPkt : List UInt8 :=
  [0, 0, 1, 1, 1, 1, 1, 1, 0, 0, 0, 7, 0, 86] ++ List.replicate 86 9

theorem inLog_fails_of_long_payload :
    ¬ ∀ (env : Env) (s : EdgeState) (type : UInt32) (module : UInt64) (pkt : Buf) (size : UInt64),
      (s.edgeRcvPkt env type module pkt size).Each InLog := by
  intro h
  have heval : (run (EdgeState.step Env.plain) (EdgeState.init [] fun _ => 0) logRun).map
      (fun s => decide (s.ctl.function = edgeFuncOn) &&
        (s.gDevMap.get (pktOid 0 (Buf.ofBytes logPkt) 100)).isSome) = some true := by
    decide +kernel
  obtain ⟨s, hrun, heq⟩ := Option.map_eq_some_iff.mp heval
  rw [Bool.and_eq_true, decide_eq_true_eq] at heq
  have hlen := (EdgeState.inLog_edgeRcvPkt_iff Env.plain s 0 0 (Buf.ofBytes logPkt) 100).mp
    (h _ _ _ _ _ _)
    { on := heq.1
      nonempty := by decide
      accepted := by decide +kernel
      levels := by decide +kernel
      device := heq.2
      header := by decide +kernel }
  exact absurd hlen (by decide +kernel)

end EceLib
