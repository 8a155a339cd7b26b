import EceLib.Support.HexText
import EceLib.Edge.Config

/-!
# The identity of a device before it is hashed

`get_dev_oid` prints the access type with at least four digits and the bytes of
the address behind it, without a separator.  An access type of more than four
digits can be taken for a shorter one with the rest of its digits in front of
the address.
-/

namespace EceLib

open Support

/-! ## The text -/

/-- The digits of the text that `get_dev_oid` hashes. -/
def oidDigits (type : UInt32) (addr : List UInt8) : List ℕ :=
  hexDigits 4 type.toNat ++ addr.flatMap nibbles

theorem oidText_eq (type : UInt32) (addr : List UInt8) :
    oidText type addr = (oidDigits type addr).map Nat.digitChar := by
  have hbytes : ∀ bytes : List UInt8,
      bytes.flatMap hexByte = (bytes.flatMap nibbles).map Nat.digitChar := by
    intro bytes
    rw [List.map_flatMap]
    rfl
  rw [oidText, hexPadded, leftpad_toDigits, hbytes, oidDigits, List.map_append]

theorem oidText_eq_iff {type type' : UInt32} {addr addr' : List UInt8} :
    oidText type addr = oidText type' addr' ↔ oidDigits type addr = oidDigits type' addr' := by
  have hlt : ∀ (t : UInt32) (a : List UInt8), ∀ d ∈ oidDigits t a, d < 16 := by
    intro t a d hd
    exact (List.mem_append.mp hd).elim hexDigits_lt nibbles_lt
  rw [oidText_eq, oidText_eq]
  exact ⟨map_digitChar_inj (hlt _ _) (hlt _ _), congrArg _⟩

/-- The access type is the other one with some bytes behind its digits, and
these bytes are the first of the other address. -/
def Shifted (type : UInt32) (addr : List UInt8) (type' : UInt32) (addr' : List UInt8) : Prop :=
  ∃ bytes, bytes ≠ [] ∧ 0x1000 ≤ type'.toNat ∧
    type.toNat = type'.toNat * 256 ^ bytes.length + ByteOrder.big.value bytes ∧
    addr' = bytes ++ addr

theorem Shifted.oidText_eq {type type' : UInt32} {addr addr' : List UInt8}
    (h : Shifted type addr type' addr') : oidText type addr = oidText type' addr' := by
  obtain ⟨bytes, hne, htype', htype, rfl⟩ := h
  rw [oidText_eq_iff, oidDigits, oidDigits, List.flatMap_append, ← List.append_assoc]
  rw [(hexDigits_eq_append_iff hne).mpr ⟨htype', htype⟩]

theorem Shifted.type_ne {type type' : UInt32} {addr addr' : List UInt8}
    (h : Shifted type addr type' addr') : type ≠ type' := by
  rintro rfl
  obtain ⟨bytes, hne, htype, heq, _⟩ := h
  have hpow : 1 < 256 ^ bytes.length :=
    Nat.one_lt_pow (List.length_pos_iff.mpr hne).ne' (by decide)
  nlinarith

/-- Texts of which the first has the longer access type. -/
theorem shifted_of_oidDigits {type type' : UInt32} {addr addr' : List UInt8} {ds : List ℕ}
    (hne : ds ≠ []) (htype : hexDigits 4 type.toNat = hexDigits 4 type'.toNat ++ ds)
    (haddr : addr'.flatMap nibbles = ds ++ addr.flatMap nibbles) :
    Shifted type addr type' addr' := by
  obtain ⟨bytes, rfl, hbytes⟩ := append_flatMap_nibbles haddr
  have hnil : bytes ≠ [] := by
    rintro rfl
    exact hne rfl
  obtain ⟨hlarge, hnumber⟩ := (hexDigits_eq_append_iff hnil).mp htype
  exact ⟨bytes, hnil, hlarge, hnumber, hbytes⟩

/-- Two devices have one text only if they are the same or one is the other
shifted. -/
theorem eq_or_shifted_of_oidText {type type' : UInt32} {addr addr' : List UInt8}
    (h : oidText type addr = oidText type' addr') :
    (type = type' ∧ addr = addr') ∨ Shifted type addr type' addr' ∨
      Shifted type' addr' type addr := by
  have hsame : hexDigits 4 type.toNat = hexDigits 4 type'.toNat →
      addr.flatMap nibbles = addr'.flatMap nibbles → type = type' ∧ addr = addr' := by
    intro htype haddr
    have hnat := congrArg hexNumber htype
    rw [hexNumber_hexDigits, hexNumber_hexDigits] at hnat
    exact ⟨UInt32.toNat_inj.mp hnat, flatMap_nibbles_inj haddr⟩
  rw [oidText_eq_iff, oidDigits, oidDigits, List.append_eq_append_iff] at h
  rcases h with ⟨ds, htype', haddr⟩ | ⟨ds, htype, haddr'⟩
  · by_cases hne : ds = []
    · subst hne
      rw [List.append_nil] at htype'
      exact Or.inl (hsame htype'.symm haddr)
    · exact Or.inr (Or.inr (shifted_of_oidDigits hne htype' haddr))
  · by_cases hne : ds = []
    · subst hne
      rw [List.append_nil] at htype
      exact Or.inl (hsame htype haddr'.symm)
    · exact Or.inr (Or.inl (shifted_of_oidDigits hne htype haddr'))

/-! ## The calls -/

/-- MD5 does not collide on two texts. -/
def Md5Separates (x y : List Char) : Prop := md5String x = md5String y → x = y

theorem oidOf_ne {type type' : UInt32} {addr addr' : List UInt8}
    (hmd5 : Md5Separates (oidText type addr) (oidText type' addr'))
    (hne : oidText type addr ≠ oidText type' addr') : oidOf type addr ≠ oidOf type' addr' := by
  intro h
  exact hne (hmd5 (congrArg Oid.chars h))

namespace EdgeState

theorem get_addDevInternal_of_ne (s : EdgeState) (pdt : EdgePdt) {oid oid' : Oid} (module : ℕ)
    (hne : oid' ≠ oid) : (s.addDevInternal pdt oid module).2.gDevMap.get oid' =
      s.gDevMap.get oid' := by
  unfold addDevInternal
  split
  · rfl
  · exact Registry.get_put_of_ne _ _ hne

theorem get_delDevInternal_of_ne {s s' : EdgeState} {dev : Dev}
    (h : s.delDevInternal dev = some s') {oid : Oid} (hne : oid ≠ dev.oid) :
    s'.gDevMap.get oid = s.gDevMap.get oid := by
  unfold delDevInternal at h
  cases hpdt : s.deref dev.pdt with
  | none => simp [hpdt] at h
  | some pdt =>
      simp only [hpdt, Option.some.injEq] at h
      rw [← h]
      exact Registry.get_remove_of_ne _ hne

end EdgeState

/-- The calls for one device do not touch the other: `get_dev` never finds one
device for both, and adding or deleting the first changes nothing of what
`get_dev` finds for the second. -/
structure KeptApart (type : UInt32) (addr : Buf) (addrLen : ℕ) (type' : UInt32) (addr' : Buf)
    (addrLen' : ℕ) : Prop where
  get : ∀ (s : EdgeState) dev, (s.getDev type addr addrLen).val = some (some dev) →
    (s.getDev type' addr' addrLen').val ≠ some (some dev)
  add : ∀ (s s' : EdgeState) module topic dev,
    (s.addDev module addr addrLen type topic).val = some (dev, s') →
      (s'.getDev type' addr' addrLen').val = (s.getDev type' addr' addrLen').val
  del : ∀ s s' : EdgeState, (s.delDev type addr addrLen).val = some s' →
    (s'.getDev type' addr' addrLen').val = (s.getDev type' addr' addrLen').val

theorem keptApart_of_oid_ne {type type' : UInt32} {addr addr' : Buf} {addrLen addrLen' : ℕ}
    (hne : oidOf type (addr.bytes 0 addrLen) ≠ oidOf type' (addr'.bytes 0 addrLen')) :
    KeptApart type addr addrLen type' addr' addrLen' where
  get := by
    intro s dev hdev hdev'
    rw [EdgeState.val_getDev, Option.some.injEq] at hdev hdev'
    have hkey : dev.oid = _ := Registry.key_of_get hdev
    have hkey' : dev.oid = _ := Registry.key_of_get hdev'
    exact hne (hkey.symm.trans hkey')
  add := by
    intro s s' module topic dev hadd
    rw [EdgeState.val_getDev, EdgeState.val_getDev]
    rcases EdgeState.addDev_cases hadd with rfl | ⟨pdt, _, _, _, rfl⟩
    · rfl
    · rw [EdgeState.get_addDevInternal_of_ne s pdt _ hne.symm]
  del := by
    intro s s' hdel
    rw [EdgeState.val_getDev, EdgeState.val_getDev]
    rcases EdgeState.delDev_cases hdel with rfl | ⟨dev, hdev, hs'⟩
    · rfl
    · have hkey : dev.oid = _ := Registry.key_of_get hdev
      rw [EdgeState.get_delDevInternal_of_ne hs' (hkey.symm ▸ hne.symm)]

/-- The text tells the two devices apart, and so do the calls as far as MD5
does. -/
structure Unambiguous (type : UInt32) (addr : List UInt8) (type' : UInt32)
    (addr' : List UInt8) : Prop where
  text : oidText type addr = oidText type' addr' → type = type' ∧ addr = addr'
  calls : Md5Separates (oidText type addr) (oidText type' addr') →
    ¬ (type = type' ∧ addr = addr') →
      ∀ (b b' : Buf) (n n' : ℕ), b.bytes 0 n = addr → b'.bytes 0 n' = addr' →
        KeptApart type b n type' b' n'

/-- Two devices are told apart exactly if neither is the other one shifted. -/
theorem unambiguous_iff (type type' : UInt32) (addr addr' : List UInt8) :
    Unambiguous type addr type' addr' ↔
      ¬ Shifted type addr type' addr' ∧ ¬ Shifted type' addr' type addr := by
  constructor
  · intro h
    constructor
    · intro hshift
      exact hshift.type_ne (h.text hshift.oidText_eq).1
    · intro hshift
      exact hshift.type_ne (h.text hshift.oidText_eq.symm).1.symm
  · rintro ⟨hshift, hshift'⟩
    have htext : oidText type addr = oidText type' addr' → type = type' ∧ addr = addr' :=
      fun heq => (eq_or_shifted_of_oidText heq).resolve_right (not_or.mpr ⟨hshift, hshift'⟩)
    refine ⟨htext, fun hmd5 hne b b' n n' hb hb' => ?_⟩
    subst hb hb'
    exact keptApart_of_oid_ne (oidOf_ne hmd5 fun heq => hne (htext heq))

/-- Access type `0x100012` with the address `34`, and access type `0x1000` with
the address `12 34`. -/
theorem unambiguous_fails_of_long_type :
    ¬ ∀ (type type' : UInt32) (addr addr' : List UInt8), addr ≠ [] → addr.length ≤ mgtAddrSize →
      addr' ≠ [] → addr'.length ≤ mgtAddrSize → Unambiguous type addr type' addr' := by
  intro h
  have htext : oidText 0x100012 [0x34] = oidText 0x1000 [0x12, 0x34] := by decide +kernel
  have hsame := (h 0x100012 0x1000 [0x34] [0x12, 0x34] (by decide) (by decide) (by decide)
    (by decide)).text htext
  exact absurd hsame.1 (by decide)

end EceLib
