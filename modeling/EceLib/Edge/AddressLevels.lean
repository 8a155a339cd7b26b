import EceLib.Edge.Processing

/-!
# The levels of an address

The control byte of a packet announces the lengths of three levels, which lie
one behind the other.  The pointer to the third is computed from the pointer to
the second, so that it is null when there is a third level without a second
one.  In all other packets that are accepted the levels make up the address
that the device is looked up by, and the message begins behind it.
-/

namespace EceLib

open Support

/-! ## The control byte -/

/-- The lengths of the three levels. -/
def ctrlH1Len (addrCtrl : UInt8) : ℕ :=
  h1LenTbl.getD (addrCtrl.toNat % 4 + 4 * (addrCtrl.toNat / 64)) 0

def ctrlH2Len (addrCtrl : UInt8) : ℕ := h2LenTbl.getD (addrCtrl.toNat / 4 % 4) 0

def ctrlH3Len (addrCtrl : UInt8) : ℕ := h3LenTbl.getD (addrCtrl.toNat / 16 % 4) 0

def ctrlLen (addrCtrl : UInt8) : ℕ := ctrlH1Len addrCtrl + ctrlH2Len addrCtrl + ctrlH3Len addrCtrl

/-- One of the two address formats; the second one has a single type. -/
def KnownFormat (addrCtrl : UInt8) : Prop :=
  addrCtrl.toNat / 64 = 0 ∨ addrCtrl.toNat / 64 = 1 ∧ addrCtrl.toNat % 4 = 1

/-- A third level without a second one. -/
def CtrlGap (addrCtrl : UInt8) : Prop := ctrlH3Len addrCtrl ≠ 0 ∧ ctrlH2Len addrCtrl = 0

instance (addrCtrl : UInt8) : Decidable (KnownFormat addrCtrl) :=
  inferInstanceAs (Decidable (_ ∨ _))

instance (addrCtrl : UInt8) : Decidable (CtrlGap addrCtrl) :=
  inferInstanceAs (Decidable (_ ∧ _))

/-- What an address at `addr` with this control byte is parsed to. -/
def ctrlInfo (addrCtrl : UInt8) (addr : ℕ) : PktInfo where
  h1 := some addr
  h1Len := ctrlH1Len addrCtrl
  h2 := if ctrlH2Len addrCtrl = 0 then none else some (addr + ctrlH1Len addrCtrl)
  h2Len := ctrlH2Len addrCtrl
  h3 :=
    if ctrlH3Len addrCtrl = 0 ∨ ctrlH2Len addrCtrl = 0 then none
    else some (addr + ctrlH1Len addrCtrl + ctrlH2Len addrCtrl)
  h3Len := ctrlH3Len addrCtrl

theorem ctrlH1Len_pos {addrCtrl : UInt8} (h : KnownFormat addrCtrl) :
    0 < ctrlH1Len addrCtrl := by
  unfold ctrlH1Len
  rcases h with htype | ⟨htype, hone⟩
  · have hall : ∀ i < 4, 0 < h1LenTbl.getD (i + 4 * 0) 0 := by decide
    rw [htype]
    exact hall _ (Nat.mod_lt _ (by decide))
  · rw [htype, hone]
    decide

theorem ctrlLen_pos {addrCtrl : UInt8} (h : KnownFormat addrCtrl) : 0 < ctrlLen addrCtrl := by
  have hpos := ctrlH1Len_pos h
  unfold ctrlLen
  omega

/-- `parse_address_filed` in terms of the control byte. -/
theorem parseAddressFiled_eq (addrCtrl : UInt8) (addr : ℕ) (size : UInt64) :
    parseAddressFiled .zero addrCtrl addr size =
      if KnownFormat addrCtrl then
        (if ctrlLen addrCtrl < size.toNat then ctrlLen addrCtrl else 0, ctrlInfo addrCtrl addr)
      else (0, .zero) := by
  unfold parseAddressFiled
  by_cases hknown : KnownFormat addrCtrl
  · have hle : ¬ 1 < addrCtrl.toNat / 64 := by
      rcases hknown with h | ⟨h, _⟩ <;> omega
    have hone : ¬ (addrCtrl.toNat / 64 = 1 ∧ addrCtrl.toNat % 4 ≠ 1) := by
      rintro ⟨h, hne⟩
      rcases hknown with h0 | ⟨_, h1⟩
      · omega
      · exact hne h1
    simp only [hle, hone, if_false, if_pos hknown]
    unfold ctrlInfo ctrlLen ctrlH1Len ctrlH2Len ctrlH3Len PktInfo.addrLen PktInfo.zero
    generalize h1LenTbl.getD _ 0 = a
    generalize h2LenTbl.getD _ 0 = b
    generalize h3LenTbl.getD _ 0 = c
    by_cases hb : b = 0
    · by_cases hc : c = 0
      · simp [hb, hc]
      · simp [hb, hc]
    · by_cases hc : c = 0
      · simp [hb, hc]
      · simp [hb, hc]
  · rw [if_neg hknown]
    by_cases hle : 1 < addrCtrl.toNat / 64
    · simp only [hle, if_true]
    · have hone : addrCtrl.toNat / 64 = 1 ∧ addrCtrl.toNat % 4 ≠ 1 := by
        unfold KnownFormat at hknown
        omega
      simp [hone]

/-- A packet is accepted if its address has a known format and does not end
with the packet. -/
theorem pktAddress_ne_zero_iff {pkt : Buf} {size : UInt64} :
    (pktAddress pkt size).1 ≠ 0 ↔
      KnownFormat (pkt.mem 1) ∧ ctrlLen (pkt.mem 1) < (size - 2).toNat := by
  rw [pktAddress, parseAddressFiled_eq]
  by_cases hknown : KnownFormat (pkt.mem 1)
  · have hpos := ctrlLen_pos hknown
    rw [if_pos hknown]
    by_cases hlt : ctrlLen (pkt.mem 1) < (size - 2).toNat
    · simp [hknown, hlt]
      omega
    · simp [hlt]
  · rw [if_neg hknown]
    simp [hknown]

/-- The address of an accepted packet. -/
theorem pktAddress_of_ne_zero {pkt : Buf} {size : UInt64} (h : (pktAddress pkt size).1 ≠ 0) :
    pktAddress pkt size = (ctrlLen (pkt.mem 1), ctrlInfo (pkt.mem 1) 2) := by
  obtain ⟨hknown, hlt⟩ := pktAddress_ne_zero_iff.mp h
  rw [pktAddress, parseAddressFiled_eq, if_pos hknown, if_pos hlt]

/-! ## The levels in the packet -/

/-- The levels of an address with their lengths. -/
def PktInfo.levels (info : PktInfo) : List (Option ℕ × ℕ) :=
  [(info.h1, info.h1Len), (info.h2, info.h2Len), (info.h3, info.h3Len)]

/-- The bytes of a level. -/
def levelBytes (pkt : Buf) (level : Option ℕ × ℕ) : List UInt8 :=
  level.1.elim [] fun pos => pkt.bytes pos level.2

/-- Every level that is not empty is a part of the packet. -/
def LevelsValid (pkt : Buf) (info : PktInfo) : Prop :=
  ∀ level ∈ info.levels, level.2 ≠ 0 → ∃ pos, level.1 = some pos ∧ pos + level.2 ≤ pkt.size

/-- The levels are parts of the packet and make up the bytes from the first one
on, and by these bytes the device and the message are found. -/
structure LevelsPartition (type : UInt32) (pkt : Buf) (size : UInt64) : Prop where
  valid : LevelsValid pkt (pktAddress pkt size).2
  address : ∃ h1, (pktAddress pkt size).2.h1 = some h1 ∧
    (pktAddress pkt size).2.levels.flatMap (levelBytes pkt) =
      pkt.bytes h1 (pktAddress pkt size).2.addrLen ∧
    ∀ (env : Env) (s : EdgeState), (s.parseG1Pkt env type pkt size).val =
      (s.gDevMap.get (oidOf type ((pktAddress pkt size).2.levels.flatMap (levelBytes pkt)))).elim
        (some (G1ProcessStatus.noDevice.code, s))
        fun dev => ((s.freshDev dev).1.parseMsg env (s.freshDev dev).2
          (pkt.drop (h1 + (pktAddress pkt size).2.addrLen)) (pktMsgSize pkt size)).val

theorem gap_ctrlInfo_iff {addrCtrl : UInt8} {addr : ℕ} :
    (ctrlInfo addrCtrl addr).Gap ↔ CtrlGap addrCtrl := Iff.rfl

/-- Bytes in a row are read in two parts. -/
theorem bytes_append (b : Buf) (off m n : ℕ) :
    b.bytes off m ++ b.bytes (off + m) n = b.bytes off (m + n) := by
  simp only [Buf.bytes, List.range_add, List.map_append, List.map_map, Function.comp_def,
    Nat.add_assoc]

/-- Without a gap the levels lie one behind the other. -/
theorem flatMap_levels_ctrlInfo (pkt : Buf) {addrCtrl : UInt8} (addr : ℕ)
    (h : ¬ CtrlGap addrCtrl) :
    (ctrlInfo addrCtrl addr).levels.flatMap (levelBytes pkt) =
      pkt.bytes addr (ctrlLen addrCtrl) := by
  simp only [PktInfo.levels, List.flatMap_cons, List.flatMap_nil, List.append_nil, levelBytes,
    ctrlInfo, ctrlLen, Option.elim_some]
  by_cases hb : ctrlH2Len addrCtrl = 0
  · have hc : ctrlH3Len addrCtrl = 0 := not_not.mp fun hc => h ⟨hc, hb⟩
    simp [hb, hc]
  · by_cases hc : ctrlH3Len addrCtrl = 0
    · simp [hb, hc, bytes_append]
    · simp only [hb, hc, or_self, if_false, Option.elim_some]
      rw [bytes_append, bytes_append, Nat.add_assoc]

theorem levelsValid_ctrlInfo {pkt : Buf} {addrCtrl : UInt8} {addr : ℕ} (h : ¬ CtrlGap addrCtrl)
    (hlen : addr + ctrlLen addrCtrl ≤ pkt.size) : LevelsValid pkt (ctrlInfo addrCtrl addr) := by
  unfold ctrlLen at hlen
  intro level hmem hne
  simp only [PktInfo.levels, List.mem_cons, List.not_mem_nil, or_false] at hmem
  rcases hmem with rfl | rfl | rfl
  · exact ⟨addr, rfl, by simp only [ctrlInfo]; omega⟩
  · refine ⟨_, if_neg hne, ?_⟩
    simp only [ctrlInfo]
    omega
  · have hb : ¬ (ctrlH3Len addrCtrl = 0 ∨ ctrlH2Len addrCtrl = 0) := by
      rintro (hc | hb)
      · exact hne hc
      · exact h ⟨hne, hb⟩
    refine ⟨_, if_neg hb, ?_⟩
    simp only [ctrlInfo]
    omega

/-- The pointer to the third level is null in a gap. -/
theorem not_levelsValid_ctrlInfo {pkt : Buf} {addrCtrl : UInt8} {addr : ℕ}
    (h : CtrlGap addrCtrl) : ¬ LevelsValid pkt (ctrlInfo addrCtrl addr) := by
  intro hvalid
  obtain ⟨pos, hpos, _⟩ := hvalid ((ctrlInfo addrCtrl addr).h3, ctrlH3Len addrCtrl)
    (by simp [PktInfo.levels, ctrlInfo]) h.1
  have hnone : (ctrlInfo addrCtrl addr).h3 = none := if_pos (Or.inr h.2)
  rw [hnone] at hpos
  cases hpos

/-- In a packet that is accepted the levels partition the address, precisely if
there is no third level without a second one. -/
theorem levelsPartition_iff (type : UInt32) {pkt : Buf} {size : UInt64}
    (hsize : size.toNat = pkt.size) (htwo : 2 ≤ pkt.size)
    (haccepted : (pktAddress pkt size).1 ≠ 0) :
    LevelsPartition type pkt size ↔ ¬ CtrlGap (pkt.mem 1) := by
  have haddr := pktAddress_of_ne_zero haccepted
  have hlt := (pktAddress_ne_zero_iff.mp haccepted).2
  rw [toNat_sub_two (by omega), hsize] at hlt
  constructor
  · intro h hgap
    have hvalid := h.valid
    rw [haddr] at hvalid
    exact not_levelsValid_ctrlInfo hgap hvalid
  · intro hgap
    have hflat := flatMap_levels_ctrlInfo pkt 2 hgap
    refine ⟨?_, 2, ?_, ?_, fun env s => ?_⟩
    · rw [haddr]
      exact levelsValid_ctrlInfo hgap (by omega)
    · rw [haddr]
      rfl
    · rw [haddr]
      exact hflat
    · have hoid : pktOid type pkt size =
          oidOf type ((ctrlInfo (pkt.mem 1) 2).levels.flatMap (levelBytes pkt)) := by
        rw [pktOid, haddr, hflat, Buf.bytes_drop]
        rfl
      rw [EdgeState.val_parseG1Pkt, if_neg haccepted, hoid, pktMsg, haddr]
      dsimp only
      rw [if_neg (gap_ctrlInfo_iff.not.mpr hgap)]
      cases s.gDevMap.get (oidOf type ((ctrlInfo (pkt.mem 1) 2).levels.flatMap
        (levelBytes pkt))) <;> rfl

/-- A packet with an address of the three levels of a control byte, and a
message without payload. -/
def levelsPkt (addrCtrl : UInt8) : List UInt8 :=
  [0, addrCtrl] ++ (List.replicate (ctrlLen addrCtrl) 1 ++ [0, 0, 0, 7, 0, 0])

/-- Three levels of six, two and two bytes. -/
theorem levelsPartition_of_three : LevelsPartition 0 (Buf.ofBytes (levelsPkt 0x14)) 18 :=
  (levelsPartition_iff 0 (by decide +kernel) (by decide) (by decide +kernel)).mpr (by decide)

/-- A first and a third level, but no second. -/
theorem levelsPartition_fails_in_gap :
    ¬ ∀ (type : UInt32) (bytes : List UInt8), 2 ≤ bytes.length → bytes.length < 2 ^ 64 →
      (pktAddress (Buf.ofBytes bytes) (UInt64.ofNat bytes.length)).1 ≠ 0 →
        LevelsPartition type (Buf.ofBytes bytes) (UInt64.ofNat bytes.length) := by
  intro h
  have haccepted : (pktAddress (Buf.ofBytes (levelsPkt 0x10))
      (UInt64.ofNat (levelsPkt 0x10).length)).1 ≠ 0 := by decide +kernel
  have hvalid := (h 0 (levelsPkt 0x10) (by decide) (by decide) haccepted).valid
  rw [pktAddress_of_ne_zero haccepted] at hvalid
  exact not_levelsValid_ctrlInfo (by decide) hvalid

end EceLib
