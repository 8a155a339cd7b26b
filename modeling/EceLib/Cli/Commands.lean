import EceLib.Cli.HexStrings
import EceLib.Server

/-!
# The commands with hexadecimal arguments

The commands of `app/cli_main.c` that convert their arguments with `ch_to_hex`.
They look at the length of what was converted afterwards, and a topic or a key
of another length than four ends the command.
-/

namespace EceLib

open Support

/-- What a command does in the end: nothing, a message to the edge, or a packet
that is handed to the edge as one of a module. -/
inductive CliAction where
  | nothing
  | server (msg : List UInt8)
  | packet (module : UInt64) (pkt : List UInt8)

/-- A command prints its usage for another number of arguments and for `?`. -/
def printsUsage (argc : ℕ) (argv : List CStr) : Bool :=
  argv.length ≠ argc || argv.head?.any fun arg => arg.bytes = [0x3F]

/-- An argument of a command that has all of them. -/
def argAt (argv : List CStr) (i : ℕ) : CStr := argv.getD i CStr.empty

/-- Convert topics and keys one after the other, while they have four bytes. -/
def convertWords : List (Destination × CStr) → Traced CliBuffer (Option (List UInt32))
  | [] => pure (some [])
  | (dst, arg) :: next => do
      let (len, bits) ← chToHex dst dst.size arg
      if len ≠ 4 then pure none
      else do
        let words ← convertWords next
        pure (words.map fun ws => (Buf.ofBytes bits).be32 0 :: ws)

/-! ## The commands

`scan i` is what `sscanf` leaves in the variable for the argument at index `i`. -/

/-- `cmd_wloc_rcv_cli_pkt`. -/
def cmdWlocRcvCliPkt (argv : List CStr) : Traced CliBuffer CliAction :=
  if printsUsage 1 argv then pure .nothing
  else do
    let (len, bits) ← chToHex .appFilePkt Destination.appFilePkt.size (argAt argv 0)
    if len = 0 then pure .nothing
    else pure (.packet 4 (bits.take len))

/-- `cmd_server_add_pdt`. -/
def cmdServerAddPdt (argv : List CStr) (scan : ℕ → UInt32) : Traced CliBuffer CliAction :=
  if printsUsage 2 argv then pure .nothing
  else do
    match ← convertWords [(.topic, argAt argv 0)] with
    | some [topic] =>
        if scan 1 > 2 ∨ scan 1 = 0 then pure .nothing
        else pure (.server (srvAddPdt topic (scan 1)))
    | _ => pure .nothing

/-- `cmd_server_del_pdt`. -/
def cmdServerDelPdt (argv : List CStr) : Traced CliBuffer CliAction :=
  if printsUsage 1 argv then pure .nothing
  else do
    match ← convertWords [(.topic, argAt argv 0)] with
    | some [topic] => pure (.server (srvDelPdt topic))
    | _ => pure .nothing

/-- `cmd_server_add_dev`. -/
def cmdServerAddDev (argv : List CStr) (scan : ℕ → UInt32) : Traced CliBuffer CliAction :=
  if printsUsage 4 argv then pure .nothing
  else do
    match ← convertWords [(.topic, argAt argv 1)] with
    | some [topic] => do
        let (len, addr) ← chToHex .addr Destination.addr.size (argAt argv 0)
        pure (.server (srvAddDev (addr.take len) topic (scan 2) (scan 3)))
    | _ => pure .nothing

/-- `cmd_server_del_dev`. -/
def cmdServerDelDev (argv : List CStr) (scan : ℕ → UInt32) : Traced CliBuffer CliAction :=
  if printsUsage 2 argv then pure .nothing
  else do
    let (len, addr) ← chToHex .addr Destination.addr.size (argAt argv 0)
    pure (.server (srvDelDev (addr.take len) (scan 1)))

/-- `cmd_server_add_g1_fmt`; its call of `srv_add_g1_fmt` is commented out. -/
def cmdServerAddG1Fmt (argv : List CStr) : Traced CliBuffer CliAction :=
  if printsUsage 2 argv then pure .nothing
  else do
    let _ ← convertWords [(.topic, argAt argv 0), (.key, argAt argv 1)]
    pure .nothing

/-- `cmd_server_del_g1_fmt`. -/
def cmdServerDelG1Fmt (argv : List CStr) : Traced CliBuffer CliAction :=
  if printsUsage 2 argv then pure .nothing
  else do
    match ← convertWords [(.topic, argAt argv 0), (.key, argAt argv 1)] with
    | some [topic, key] => pure (.server (srvDelG1Fmt topic key))
    | _ => pure .nothing

/-- `cmd_server_add_g1_token`. -/
def cmdServerAddG1Token (argv : List CStr) (scan : ℕ → UInt32) :
    Traced CliBuffer CliAction :=
  if printsUsage 6 argv then pure .nothing
  else do
    match ← convertWords [(.topic, argAt argv 0), (.key, argAt argv 1),
        (.tokenTopic, argAt argv 2)] with
    | some [topic, key, tokenTopic] =>
        if scan 5 = 0 then pure .nothing
        else pure (.server (srvAddG1Token topic key tokenTopic (scan 3) (scan 4) (scan 5)))
    | _ => pure .nothing

/-- `cmd_server_del_g1_token`. -/
def cmdServerDelG1Token (argv : List CStr) : Traced CliBuffer CliAction :=
  if printsUsage 3 argv then pure .nothing
  else do
    match ← convertWords [(.topic, argAt argv 0), (.key, argAt argv 1),
        (.tokenTopic, argAt argv 2)] with
    | some [topic, key, tokenTopic] => pure (.server (srvDelG1Token topic key tokenTopic))
    | _ => pure .nothing

inductive HexCommand where
  | rcvCliPkt
  | addPdt
  | delPdt
  | addDev
  | delDev
  | addG1Fmt
  | delG1Fmt
  | addG1Token
  | delG1Token

namespace HexCommand

def exec (argv : List CStr) (scan : ℕ → UInt32) : HexCommand → Traced CliBuffer CliAction
  | rcvCliPkt => cmdWlocRcvCliPkt argv
  | addPdt => cmdServerAddPdt argv scan
  | delPdt => cmdServerDelPdt argv
  | addDev => cmdServerAddDev argv scan
  | delDev => cmdServerDelDev argv scan
  | addG1Fmt => cmdServerAddG1Fmt argv
  | delG1Fmt => cmdServerDelG1Fmt argv
  | addG1Token => cmdServerAddG1Token argv scan
  | delG1Token => cmdServerDelG1Token argv

/-- The number of arguments a command has. -/
def argc : HexCommand → ℕ
  | rcvCliPkt | delPdt => 1
  | addPdt | delDev | addG1Fmt | delG1Fmt => 2
  | delG1Token => 3
  | addDev => 4
  | addG1Token => 6

/-- What a command converts, in its order. -/
def conversions (argv : List CStr) : HexCommand → List (Destination × CStr)
  | rcvCliPkt => [(.appFilePkt, argAt argv 0)]
  | addPdt | delPdt => [(.topic, argAt argv 0)]
  | addDev => [(.topic, argAt argv 1), (.addr, argAt argv 0)]
  | delDev => [(.addr, argAt argv 0)]
  | addG1Fmt | delG1Fmt => [(.topic, argAt argv 0), (.key, argAt argv 1)]
  | addG1Token | delG1Token =>
      [(.topic, argAt argv 0), (.key, argAt argv 1), (.tokenTopic, argAt argv 2)]

end HexCommand

/-! ## Arguments that fit -/

/-- A topic or a key: eight digits. -/
def EightDigits (s : List UInt8) : Prop := s.length = 8 ∧ ∀ c ∈ s, isHex c

/-- Each argument that is converted begins with at most two digits for each
byte of its destination; the next one is converted if it is a topic or a key. -/
def ArgsFit : List (Destination × CStr) → Prop
  | [] => True
  | (dst, arg) :: next =>
      hexPrefix arg.bytes ≤ 2 * dst.size ∧ (EightDigits arg.bytes → ArgsFit next)

/-- No destination has so many bytes that the index could not reach its end. -/
theorem two_mul_size_le (dst : Destination) : 2 * dst.size ≤ intMax := by
  cases dst <;> decide

theorem each_chToHex_iff_hexPrefix (dst : Destination) (s : CStr) :
    (chToHex dst dst.size s).Each InDestination ↔ hexPrefix s.bytes ≤ 2 * dst.size := by
  rw [each_chToHex_iff dst (two_mul_size_le dst), bytesWritten]
  omega

theorem val_chToHex_eq_four_iff (dst : Destination) {s : CStr}
    (hfits : hexPrefix s.bytes ≤ 2 * dst.size) :
    ∃ len bits, (chToHex dst dst.size s).val = some (len, bits) ∧
      (len = 4 ↔ EightDigits s.bytes) := by
  have hsize := two_mul_size_le dst
  obtain ⟨out, hout, -⟩ := @val_chToHexLoop dst dst.size s.bytes.length s.bytes []
    (by rw [List.length_nil, bytesWritten]; omega) (by rw [List.length_nil]; omega)
  refine ⟨_, out, hout, ?_⟩
  simp only [HexPairs, EightDigits, List.length_nil, Nat.zero_add]
  split
  · rename_i hpairs
    constructor
    · intro h
      exact ⟨by omega, hpairs.1⟩
    · intro h
      rw [h.1]
  · rename_i hodd
    constructor
    · intro h
      cases h
    · intro h
      exact absurd ⟨h.2, by rw [h.1]⟩ hodd

theorem each_convertWords_iff (args : List (Destination × CStr)) :
    (convertWords args).Each InDestination ↔ ArgsFit args := by
  induction args with
  | nil => exact iff_of_true (Traced.each_pure _) trivial
  | cons arg next ih =>
      obtain ⟨dst, arg⟩ := arg
      rw [convertWords, Traced.each_bind, each_chToHex_iff_hexPrefix]
      refine and_congr_right fun hfits => ?_
      obtain ⟨len, bits, hval, hfour⟩ := val_chToHex_eq_four_iff dst hfits
      have hnext : ((convertWords next >>= fun words =>
          (pure (words.map fun ws => (Buf.ofBytes bits).be32 0 :: ws) :
            Traced CliBuffer (Option (List UInt32)))).Each InDestination ↔ ArgsFit next) := by
        rw [Traced.each_bind, ih]
        exact and_iff_left fun _ _ => Traced.each_pure _
      rw [hval, ← hfour, ← hnext]
      constructor
      · intro h hlen
        have hstep := h (len, bits) rfl
        simpa only [hlen, ne_eq, not_true_eq_false, if_false] using hstep
      · rintro h r hr
        cases hr
        by_cases hlen : len = 4
        · simpa only [hlen, ne_eq, not_true_eq_false, if_false] using h hlen
        · simp [hlen]

/-- One word. -/
theorem val_convertWords_single (dst : Destination) {arg : CStr}
    (hfits : hexPrefix arg.bytes ≤ 2 * dst.size) :
    ∃ words, (convertWords [(dst, arg)]).val = some words ∧
      (EightDigits arg.bytes → ∃ word, words = some [word]) ∧
      (¬ EightDigits arg.bytes → words = none) := by
  obtain ⟨len, bits, hval, hfour⟩ := val_chToHex_eq_four_iff dst hfits
  by_cases hlen : len = 4
  · refine ⟨some [(Buf.ofBytes bits).be32 0], ?_, fun _ => ⟨_, rfl⟩, ?_⟩
    · simp [convertWords, hval, hlen]
    · exact fun h => absurd (hfour.mp hlen) h
  · refine ⟨none, ?_, fun h => absurd (hfour.mpr h) hlen, fun _ => rfl⟩
    simp [convertWords, hval, hlen]

theorem each_bind_of_each {α β : Type} {x : Traced CliBuffer α} {f : α → Traced CliBuffer β}
    (h : ∀ a, (f a).Each InDestination) :
    (x >>= f).Each InDestination ↔ x.Each InDestination := by
  rw [Traced.each_bind]
  exact and_iff_left fun a _ => h a

/-- The address is converted if the topic was. -/
theorem each_cmdServerAddDev_iff {topicArg addrArg : CStr}
    {f : UInt32 → ℕ × List UInt8 → CliAction} :
    ((do
      match ← convertWords [(.topic, topicArg)] with
      | some [topic] => do
          let r ← chToHex .addr Destination.addr.size addrArg
          pure (f topic r)
      | _ => pure .nothing : Traced CliBuffer CliAction)).Each InDestination ↔
      ArgsFit [(.topic, topicArg), (.addr, addrArg)] := by
  rw [Traced.each_bind, each_convertWords_iff]
  simp only [ArgsFit, and_true, implies_true]
  refine and_congr_right fun hfits => ?_
  obtain ⟨words, hval, hsome, hnone⟩ := val_convertWords_single .topic hfits
  rw [hval]
  by_cases height : EightDigits topicArg.bytes
  · obtain ⟨word, rfl⟩ := hsome height
    have haddr : (chToHex .addr Destination.addr.size addrArg >>= fun r =>
        (pure (f word r) : Traced CliBuffer CliAction)).Each InDestination ↔
          hexPrefix addrArg.bytes ≤ 2 * Destination.addr.size := by
      rw [Traced.each_bind, each_chToHex_iff_hexPrefix .addr]
      exact and_iff_left fun _ _ => Traced.each_pure _
    rw [← haddr]
    constructor
    · exact fun h _ => h _ rfl
    · intro h r hr
      cases hr
      exact h height
  · rw [hnone height]
    refine iff_of_true (fun r hr => ?_) fun h => absurd h height
    cases hr
    exact Traced.each_pure _

/-- The conversions of a command that does not print its usage stay inside
their destinations exactly if the arguments fit. -/
theorem inDestination_exec_iff (c : HexCommand) (argv : List CStr) (scan : ℕ → UInt32) :
    (c.exec argv scan).Each InDestination ↔
      (printsUsage c.argc argv = false → ArgsFit (c.conversions argv)) := by
  have husage : ∀ {b : Bool} {x : Traced CliBuffer CliAction} {Q : Prop},
      (b = false → (x.Each InDestination ↔ Q)) →
        ((if b then pure .nothing else x).Each InDestination ↔ (b = false → Q)) := by
    intro b x Q h
    cases b with
    | true => simp
    | false => simpa using h rfl
  have hsingle : ∀ {dst : Destination} {arg : CStr} {f : ℕ × List UInt8 → Traced _ CliAction},
      (∀ a, (f a).Each InDestination) →
        ((chToHex dst dst.size arg >>= f).Each InDestination ↔ ArgsFit [(dst, arg)]) := by
    intro dst arg f hf
    rw [each_bind_of_each hf, each_chToHex_iff_hexPrefix]
    exact (and_iff_left fun _ => trivial).symm
  have hwords : ∀ {args : List (Destination × CStr)}
      {f : Option (List UInt32) → Traced _ CliAction}, (∀ a, (f a).Each InDestination) →
        ((convertWords args >>= f).Each InDestination ↔ ArgsFit args) := by
    intro args f hf
    rw [each_bind_of_each hf, each_convertWords_iff]
  cases c with
  | rcvCliPkt =>
      refine husage fun _ => hsingle fun r => ?_
      obtain ⟨len, bits⟩ := r
      by_cases hlen : len = 0
      · simp [hlen]
      · simp [hlen]
  | addPdt =>
      refine husage fun _ => hwords fun r => ?_
      split
      · split <;> exact Traced.each_pure _
      · exact Traced.each_pure _
  | delPdt =>
      refine husage fun _ => hwords fun r => ?_
      split <;> exact Traced.each_pure _
  | addDev => exact husage fun _ => each_cmdServerAddDev_iff
  | delDev => exact husage fun _ => hsingle fun r => Traced.each_pure _
  | addG1Fmt => exact husage fun _ => hwords fun r => Traced.each_pure _
  | delG1Fmt =>
      refine husage fun _ => hwords fun r => ?_
      split <;> exact Traced.each_pure _
  | addG1Token =>
      refine husage fun _ => hwords fun r => ?_
      split
      · split <;> exact Traced.each_pure _
      · exact Traced.each_pure _
  | delG1Token =>
      refine husage fun _ => hwords fun r => ?_
      split <;> exact Traced.each_pure _

/-- Ten digits for a topic. -/
def longArg : CStr where
  bytes := List.replicate 10 0x31
  ne_zero := by simp

theorem inDestination_fails_of_long_argument :
    ¬ ∀ (c : HexCommand) (argv : List CStr) (scan : ℕ → UInt32),
      (c.exec argv scan).Each InDestination := by
  intro h
  have hfits := (inDestination_exec_iff .delPdt [longArg] fun _ => 0).mp (h _ _ _) (by decide)
  exact absurd hfits.1 (by decide)

end EceLib
