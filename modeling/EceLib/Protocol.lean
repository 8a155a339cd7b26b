import EceLib.Answer

/-!
# The management protocol

The server encodes each of its eight calls in one file, and the edge decodes the
message in another.  On every message the edge does what the call asks for, with
the arguments of the call, except that `add_dev` takes the module number of a
new device for an `unsigned short`.
-/

namespace EceLib

open Support

/-- An array that fits a field of `size` bytes. -/
abbrev FieldBytes (size : ℕ) := {data : List UInt8 // data.length ≤ size}

/-- A call of one of the encoders of the server. -/
inductive ServerCall where
  | addPdt (topic endian : UInt32)
  | delPdt (topic : UInt32)
  | addDev (addr : FieldBytes mgtAddrSize) (topic linkType module : UInt32)
  | delDev (addr : FieldBytes mgtAddrSize) (linkType : UInt32)
  | addG1Fmt (topic key size : UInt32) (pkt : FieldBytes mgtPktSize) (offset attrLen : UInt32)
  | delG1Fmt (topic key : UInt32)
  | addG1Token (topic key tokenTopic type offset len : UInt32)
  | delG1Token (topic key tokenTopic : UInt32)

/-- What `add_dev` does for a module number that is taken as it is. -/
def EdgeState.addDevOf (s : EdgeState) (module : ℕ) (addr : List UInt8) (type topic : UInt32) :
    EdgeState :=
  if addr.length = 0 ∨ topic = 0 then s
  else
    match s.getPdt topic with
    | none => s
    | some pdt => (s.addDevInternal pdt (oidOf type addr) module).2

/-- AddDevice creates a device. -/
def EdgeState.CreatesDev (s : EdgeState) (addr : List UInt8) (type topic : UInt32) : Prop :=
  addr.length ≠ 0 ∧ topic ≠ 0 ∧ (s.gPdtMap.get topic).isSome ∧
    s.gDevMap.get (oidOf type addr) = none

namespace ServerCall

/-- The message of a call. -/
def msg : ServerCall → List UInt8
  | addPdt topic endian => srvAddPdt topic endian
  | delPdt topic => srvDelPdt topic
  | addDev addr topic linkType module => srvAddDev addr topic linkType module
  | delDev addr linkType => srvDelDev addr linkType
  | addG1Fmt topic key size pkt offset attrLen => srvAddG1Fmt topic key size pkt offset attrLen
  | delG1Fmt topic key => srvDelG1Fmt topic key
  | addG1Token topic key tokenTopic type offset len =>
      srvAddG1Token topic key tokenTopic type offset len
  | delG1Token topic key tokenTopic => srvDelG1Token topic key tokenTopic

/-- The operation of the edge a call asks for, with the arguments of the call. -/
def perform (s : EdgeState) : ServerCall → Option EdgeState
  | addPdt topic endian => some (s.addPdt topic endian).2
  | delPdt topic => some (s.delPdt topic)
  | addDev addr topic linkType module => some (s.addDevOf module.toNat addr linkType topic)
  | delDev addr linkType => (s.delDev linkType (Buf.ofBytes addr) addr.1.length).val
  | addG1Fmt topic key size pkt offset attrLen =>
      (EceLib.addG1Fmt s topic key size.toNat (Buf.ofBytes pkt) pkt.1.length offset.toNat
        attrLen.toNat).val
  | delG1Fmt topic key => some (EceLib.delG1Fmt s topic key)
  | addG1Token topic key tokenTopic type offset len =>
      some (EceLib.addG1Token s topic key tokenTopic type offset.toNat len.toNat).2
  | delG1Token topic key tokenTopic => some (EceLib.delG1Token s topic key tokenTopic)

/-- The edge does on the message of a call what the call asks for, and a device
that is created has the module number of the call.  Like every message it counts
as an answer first. -/
structure Agrees (env : Env) (s : EdgeState) (c : ServerCall) : Prop where
  effect : s.step env (.ofMsg c.msg) = c.perform s.answered
  module : ∀ addr topic linkType module s', c = addDev addr topic linkType module →
    s.CreatesDev addr linkType topic → s.step env (.ofMsg c.msg) = some s' →
      ∃ dev, s'.gDevMap.get (oidOf linkType addr) = some dev ∧ dev.module = module.toNat

/-- The call creates no device, or one with a module number of 16 bits. -/
def ModuleFits (s : EdgeState) : ServerCall → Prop
  | addDev addr topic linkType module => s.CreatesDev addr linkType topic → module.toNat < 2 ^ 16
  | _ => True

end ServerCall

/-! ## The module number -/

/-- A device that is created is registered with the module number it was created
with. -/
theorem EdgeState.exists_addDevOf {s : EdgeState} {addr : List UInt8} {type topic : UInt32}
    (h : s.CreatesDev addr type topic) (module : ℕ) :
    ∃ dev, (s.addDevOf module addr type topic).gDevMap.get (oidOf type addr) = some dev ∧
      dev.module = module := by
  obtain ⟨haddr, htopic, hpdt, hnone⟩ := h
  obtain ⟨pdt, hpdt⟩ := Option.isSome_iff_exists.mp hpdt
  have hargs : ¬ (addr.length = 0 ∨ topic = 0) := not_or.mpr ⟨haddr, htopic⟩
  unfold addDevOf getPdt addDevInternal
  simp only [if_neg hargs, hpdt, Registry.containsKey_eq, hnone, Option.isSome_none,
    Bool.false_eq_true, if_false]
  exact ⟨_, Registry.get_put_self _ _, rfl⟩

/-- Where no device is created the module number has no effect. -/
theorem EdgeState.addDevOf_of_not_createsDev {s : EdgeState} {addr : List UInt8}
    {type topic : UInt32} (h : ¬ s.CreatesDev addr type topic) (module : ℕ) :
    s.addDevOf module addr type topic = s := by
  unfold addDevOf getPdt addDevInternal
  by_cases hargs : addr.length = 0 ∨ topic = 0
  · rw [if_pos hargs]
  · rw [if_neg hargs]
    obtain ⟨haddr, htopic⟩ := not_or.mp hargs
    cases hpdt : s.gPdtMap.get topic with
    | none => rfl
    | some pdt =>
        have hknown : s.gDevMap.get (oidOf type addr) ≠ none := fun hnone =>
          h ⟨haddr, htopic, by simp [hpdt], hnone⟩
        have hcontains : s.gDevMap.containsKey (oidOf type addr) = true := by
          rw [Registry.containsKey_eq]
          exact Option.isSome_iff_ne_none.mpr hknown
        simp only [hcontains, if_true]

/-- A number of 32 bits survives the conversion to 16 bits precisely when it has
no more than 16. -/
theorem toNat_toUInt16_eq_iff (module : UInt32) :
    module.toUInt16.toNat = module.toNat ↔ module.toNat < 2 ^ 16 := by
  rw [UInt32.toNat_toUInt16, Nat.mod_eq_iff_lt (by decide)]

/-! ## The eight calls -/

namespace ServerCall

/-- What the edge does on the message of a call: the conversion of the module
number is all there is to tell from the call. -/
theorem step_msg (env : Env) (s : EdgeState) (c : ServerCall) :
    s.step env (.ofMsg c.msg) =
      match c with
      | addDev addr topic linkType module =>
          some (s.answered.addDevOf module.toUInt16.toNat addr linkType topic)
      | c => c.perform s.answered := by
  cases c with
  | addPdt topic endian => exact step_srvAddPdt env s topic endian
  | delPdt topic => exact step_srvDelPdt env s topic
  | addDev addr topic linkType module =>
      exact step_srvAddDev env s topic linkType module addr.2
  | delDev addr linkType => exact step_srvDelDev env s linkType addr.2
  | addG1Fmt topic key size pkt offset attrLen =>
      exact step_srvAddG1Fmt env s topic key size offset attrLen pkt.2
  | delG1Fmt topic key => exact step_srvDelG1Fmt env s topic key
  | addG1Token topic key tokenTopic type offset len =>
      exact step_srvAddG1Token env s topic key tokenTopic type offset len
  | delG1Token topic key tokenTopic => exact step_srvDelG1Token env s topic key tokenTopic

/-- In every state and for every call with arrays that fit, the edge agrees with
the server precisely when the module number of a device that is created fits 16
bits. -/
theorem agrees_iff (env : Env) (s : EdgeState) (c : ServerCall) :
    c.Agrees env s ↔ c.ModuleFits s := by
  have hother : (∀ addr topic linkType module, c ≠ addDev addr topic linkType module) →
      s.step env (.ofMsg c.msg) = c.perform s.answered →
      (c.Agrees env s ↔ True) := fun hne heffect =>
    iff_of_true ⟨heffect, fun addr topic linkType module _ hc =>
      absurd hc (hne addr topic linkType module)⟩ trivial
  have hstep := step_msg env s c
  cases c with
  | addDev addr topic linkType module =>
      simp only at hstep
      have hcreates : s.answered.CreatesDev addr linkType topic ↔
          s.CreatesDev addr linkType topic := Iff.rfl
      constructor
      · intro h hnew
        obtain ⟨dev, hdev, hmodule⟩ := EdgeState.exists_addDevOf (hcreates.mpr hnew)
          module.toUInt16.toNat
        obtain ⟨dev', hdev', hmodule'⟩ :=
          h.module addr topic linkType module _ rfl hnew hstep
        obtain rfl := Option.some.inj (hdev.symm.trans hdev')
        rw [← toNat_toUInt16_eq_iff, ← hmodule, hmodule']
      · intro h
        refine ⟨?_, ?_⟩
        · rw [hstep, perform]
          by_cases hnew : s.CreatesDev addr linkType topic
          · rw [(toNat_toUInt16_eq_iff module).mpr (h hnew)]
          · rw [EdgeState.addDevOf_of_not_createsDev (mt hcreates.mp hnew),
              EdgeState.addDevOf_of_not_createsDev (mt hcreates.mp hnew)]
        · rintro addr' topic' linkType' module' s' ⟨⟩ hnew hs'
          rw [hstep, Option.some.injEq] at hs'
          obtain ⟨dev, hdev, hmodule⟩ := EdgeState.exists_addDevOf (hcreates.mpr hnew)
            module.toUInt16.toNat
          rw [← hs']
          exact ⟨dev, hdev, hmodule.trans ((toNat_toUInt16_eq_iff module).mpr (h hnew))⟩
  | addPdt topic endian => exact hother (by simp) hstep
  | delPdt topic => exact hother (by simp) hstep
  | delDev addr linkType => exact hother (by simp) hstep
  | addG1Fmt topic key size pkt offset attrLen => exact hother (by simp) hstep
  | delG1Fmt topic key => exact hother (by simp) hstep
  | addG1Token topic key tokenTopic type offset len => exact hother (by simp) hstep
  | delG1Token topic key tokenTopic => exact hother (by simp) hstep

/-- A device of module 65536 is created for module 0. -/
theorem agrees_fails_of_wide_module :
    ¬ ∀ (env : Env) (mac : List UInt8) (clock : ℕ → ℕ) (es : List Event) (s : EdgeState)
      (c : ServerCall), run (EdgeState.step env) (EdgeState.init mac clock) es = some s →
        c.Agrees env s := by
  intro h
  let call : ServerCall := addDev ⟨[1, 1, 1, 1, 1, 1], by decide⟩ 5 0 65536
  let s := ((EdgeState.init [] fun _ => 0).addPdt 5 1).2
  have hagrees : call.Agrees Env.plain s :=
    h Env.plain [] (fun _ => 0) [.command (.addProduct 5 1)] s call rfl
  have hnew : s.CreatesDev [1, 1, 1, 1, 1, 1] 0 5 :=
    ⟨by decide, by decide, by decide, Registry.get_init 16 EdgeState.attrMap_capacity_pos _⟩
  have hstep := step_msg Env.plain s call
  obtain ⟨dev, hdev, hmodule⟩ := EdgeState.exists_addDevOf (s := s.answered) hnew
    ((65536 : UInt32).toUInt16.toNat)
  obtain ⟨dev', hdev', hmodule'⟩ := hagrees.module _ _ _ _ _ rfl hnew hstep
  obtain rfl := Option.some.inj (hdev.symm.trans hdev')
  rw [hmodule] at hmodule'
  exact absurd hmodule' (by decide)

end ServerCall

end EceLib
