import EceLib.Cli.Lookup

/-!
# A word that abbreviates a command

A typed word stands for a visible command if it begins the name of no other
visible command of the list, or is the whole name.  `cli_build_shortest` and the
two comparisons of `cli_find_command` decide just this as long as `unique_len`
has been computed for the privilege and the mode of the session, and every
change of these computes it anew.
-/

namespace EceLib.Cli

open Json (tolower)

variable {κ ω : Type}

/-! ## The lengths in the tree -/

theorem buildCommand_eq (privilege mode : ℤ) (commands : List (Command κ)) (i : ℕ)
    (c : Command κ) :
    buildCommand privilege mode commands i c =
      if c.visible privilege mode then
        { c with
          uniqueLen := shortest privilege mode commands i c.command
          children := buildShortest privilege mode c.children }
      else { c with uniqueLen := c.command.length } := by
  cases c
  rw [buildCommand]
  rfl

/-- What a command is for its siblings. -/
def Command.entry (c : Command κ) : List Char × ℤ × ℤ := (c.command, c.privilege, c.mode)

theorem buildCommand_entry (privilege mode : ℤ) (commands : List (Command κ)) (i : ℕ)
    (c : Command κ) : (buildCommand privilege mode commands i c).entry = c.entry := by
  rw [buildCommand_eq]
  split <;> rfl

theorem visible_of_entry {c d : Command κ} (h : c.entry = d.entry) (privilege mode : ℤ) :
    c.visible privilege mode = d.visible privilege mode := by
  simp only [Command.entry, Prod.mk.injEq] at h
  rw [Command.visible, Command.visible, h.2.1, h.2.2]

theorem buildLoop_entries (privilege mode : ℤ) (commands : List (Command κ)) (i : ℕ)
    (cs : List (Command κ)) :
    (buildLoop privilege mode commands i cs).map Command.entry = cs.map Command.entry := by
  induction cs generalizing i with
  | nil => rfl
  | cons c cs ih => rw [buildLoop, List.map_cons, buildCommand_entry, ih, List.map_cons]

theorem buildLoop_getElem? (privilege mode : ℤ) (commands : List (Command κ)) (i j : ℕ)
    (cs : List (Command κ)) :
    (buildLoop privilege mode commands i cs)[j]? =
      cs[j]?.map (buildCommand privilege mode commands (i + j)) := by
  induction cs generalizing i j with
  | nil => rfl
  | cons c cs ih =>
      cases j with
      | zero => rfl
      | succ j =>
          rw [buildLoop, List.getElem?_cons_succ, List.getElem?_cons_succ, ih]
          rw [Nat.add_right_comm, Nat.add_assoc]

/-- The bound that `unique_len` is, for a visible command. -/
theorem shortest_le_iff (privilege mode : ℤ) (commands : List (Command κ)) (i : ℕ)
    (name : List Char) (n : ℕ) :
    shortest privilege mode commands i name ≤ n ↔
      1 ≤ n ∧ ∀ j c, commands[j]? = some c → j ≠ i → c.visible privilege mode = true →
        sharedLen name c.command ≤ n := by
  have hfold : ∀ (l : List (Command κ × ℕ)) (len : ℕ),
      l.foldl (fun len p => max len (sharedLen name p.1.command)) len ≤ n ↔
        len ≤ n ∧ ∀ p ∈ l, sharedLen name p.1.command ≤ n := by
    intro l
    induction l with
    | nil => simp
    | cons p l ih =>
        intro len
        rw [List.foldl_cons, ih, Nat.max_le, List.forall_mem_cons, and_assoc]
  rw [shortest, hfold]
  refine and_congr_right fun _ => ⟨fun h j c hc hj hv => ?_, ?_⟩
  · refine h (c, j) (List.mem_filter.mpr ⟨List.mem_zipIdx_iff_getElem?.mpr hc, ?_⟩)
    simp [hj, hv]
  · rintro h ⟨c, j⟩ hp
    obtain ⟨hmem, hp⟩ := List.mem_filter.mp hp
    simp only [bne_iff_ne, ne_eq, Bool.and_eq_true] at hp
    exact h j c (List.mem_zipIdx_iff_getElem?.mp hmem) hp.1 hp.2

/-- The siblings matter only by their entries. -/
theorem shortest_congr (privilege mode : ℤ) {commands commands' : List (Command κ)}
    (h : commands.map Command.entry = commands'.map Command.entry) (i : ℕ) (name : List Char) :
    shortest privilege mode commands i name = shortest privilege mode commands' i name := by
  have hle : ∀ {cs ds : List (Command κ)}, cs.map Command.entry = ds.map Command.entry →
      shortest privilege mode cs i name ≤ shortest privilege mode ds i name := by
    intro cs ds hcs
    rw [shortest_le_iff]
    obtain ⟨hone, hall⟩ := (shortest_le_iff privilege mode ds i name _).mp le_rfl
    refine ⟨hone, fun j c hc hj hv => ?_⟩
    have hentry : ds[j]?.map Command.entry = some c.entry := by
      rw [← List.getElem?_map, ← hcs, List.getElem?_map, hc]
      rfl
    obtain ⟨d, hd, hde⟩ := Option.map_eq_some_iff.mp hentry
    have hname : d.command = c.command := congrArg Prod.fst hde
    rw [← hname]
    exact hall j d hd hj (visible_of_entry hde privilege mode ▸ hv)
  exact le_antisymm (hle h) (hle h.symm)

mutual

theorem buildCommand_idem (privilege mode : ℤ) (commands : List (Command κ)) (i : ℕ) :
    ∀ c : Command κ,
      buildCommand privilege mode (buildShortest privilege mode commands) i
          (buildCommand privilege mode commands i c) =
        buildCommand privilege mode commands i c
  | ⟨command, callback, uniqueLen, help, priv, md, children⟩ => by
      have hentries := buildLoop_entries privilege mode commands 0 commands
      have hchildren : buildShortest privilege mode (buildLoop privilege mode children 0 children) =
          buildLoop privilege mode children 0 children :=
        buildLoop_idem privilege mode children 0 children
      rw [buildCommand]
      split
      · next hvisible =>
          rw [buildCommand, if_pos hvisible, buildShortest,
            shortest_congr privilege mode hentries, ← buildShortest, hchildren]
      · next hvisible => rw [buildCommand, if_neg hvisible]

theorem buildLoop_idem (privilege mode : ℤ) (commands : List (Command κ)) (i : ℕ) :
    ∀ cs : List (Command κ),
      buildLoop privilege mode (buildShortest privilege mode commands) i
          (buildLoop privilege mode commands i cs) =
        buildLoop privilege mode commands i cs
  | [] => rfl
  | c :: cs => by
      rw [buildLoop, buildLoop, buildCommand_idem privilege mode commands i c,
        buildLoop_idem privilege mode commands (i + 1) cs]

end

/-- The lengths have been computed for the privilege and the mode. -/
def Fresh (privilege mode : ℤ) (commands : List (Command κ)) : Prop :=
  buildShortest privilege mode commands = commands

theorem fresh_buildShortest (privilege mode : ℤ) (commands : List (Command κ)) :
    Fresh privilege mode (buildShortest privilege mode commands) :=
  buildLoop_idem privilege mode commands 0 commands

theorem Fresh.getElem? {privilege mode : ℤ} {commands : List (Command κ)} {i : ℕ}
    {c : Command κ} (h : Fresh privilege mode commands) (hc : commands[i]? = some c) :
    buildCommand privilege mode commands i c = c := by
  have hbuilt := buildLoop_getElem? privilege mode commands 0 i commands
  have hsame : buildLoop privilege mode commands 0 commands = commands := h
  rw [hsame, hc, Option.map_some, Option.some.injEq, Nat.zero_add] at hbuilt
  exact hbuilt.symm

theorem Fresh.uniqueLen {privilege mode : ℤ} {commands : List (Command κ)} {i : ℕ}
    {c : Command κ} (h : Fresh privilege mode commands) (hc : commands[i]? = some c)
    (hv : c.visible privilege mode = true) :
    c.uniqueLen = shortest privilege mode commands i c.command := by
  have hbuilt := h.getElem? hc
  rw [buildCommand_eq, if_pos hv] at hbuilt
  exact (congrArg Command.uniqueLen hbuilt).symm

theorem Fresh.uniqueLen_hidden {privilege mode : ℤ} {commands : List (Command κ)} {i : ℕ}
    {c : Command κ} (h : Fresh privilege mode commands) (hc : commands[i]? = some c)
    (hv : c.visible privilege mode = false) : c.uniqueLen = c.command.length := by
  have hbuilt := h.getElem? hc
  rw [buildCommand_eq, if_neg (Bool.eq_false_iff.mp hv)] at hbuilt
  exact (congrArg Command.uniqueLen hbuilt).symm

theorem Fresh.children {privilege mode : ℤ} {commands : List (Command κ)} {i : ℕ}
    {c : Command κ} (h : Fresh privilege mode commands) (hc : commands[i]? = some c)
    (hv : c.visible privilege mode = true) : Fresh privilege mode c.children := by
  have hbuilt := h.getElem? hc
  rw [buildCommand_eq, if_pos hv] at hbuilt
  exact congrArg Command.children hbuilt

/-! ## The comparisons -/

/-- A registered name: it has no capitals and no terminator. -/
def PlainName (name : List Char) : Prop := ∀ c ∈ name, tolower c = c ∧ c ≠ '\x00'

theorem PlainName.map_tolower {name : List Char} (h : PlainName name) :
    name.map tolower = name := by
  rw [List.map_congr_left (g := id) fun c hc => (h c hc).1, List.map_id]

theorem tolower_ne_zero {c : Char} (hc : c ≠ '\x00') : tolower c ≠ '\x00' := by
  rw [tolower]
  split
  · next h =>
      simp only [ge_iff_le, Bool.and_eq_true, decide_eq_true_eq] at h
      have hle : c.toNat ≤ 90 := h.2
      have hvalid : (c.toNat + 32).isValidChar := Or.inl (by omega)
      have hval : (Char.ofNat (c.toNat + 32)).toNat = c.toNat + 32 := by
        rw [Char.ofNat, dif_pos hvalid]
        rfl
      intro hz
      rw [hz] at hval
      have hzero : '\x00'.toNat = 0 := rfl
      omega
  · exact hc

/-- `sharedLen` tells a common beginning from one that is not. -/
theorem sharedLen_le_iff {w name : List Char} (h : w <+: name) (other : List Char) :
    sharedLen name other ≤ w.length ↔ ¬ w <+: other := by
  obtain ⟨rest, rfl⟩ := h
  induction w generalizing other with
  | nil =>
      have hpos : ∀ a b : List Char, 1 ≤ sharedLen a b := by
        intro a b
        cases a with
        | nil => exact le_rfl
        | cons a s =>
            cases b with
            | nil => exact le_rfl
            | cons b t =>
                rw [sharedLen]
                split <;> omega
      have := hpos ([] ++ rest) other
      simp only [List.length_nil, List.nil_prefix, not_true_eq_false, iff_false]
      omega
  | cons c w ih =>
      cases other with
      | nil => simp [sharedLen]
      | cons d other =>
          rw [List.cons_append, sharedLen, List.cons_prefix_cons]
          split
          · next hcd =>
              rw [List.length_cons, Nat.add_le_add_iff_right, ih]
              simp [hcd]
          · next hcd => simp [hcd]

theorem take_eq_take_iff_prefix {w name : List Char} (hw : '\x00' ∉ w) :
    (name ++ ['\x00']).take w.length = (w ++ ['\x00']).take w.length ↔ w <+: name := by
  rw [List.take_left]
  constructor
  · intro h
    have hprefix : w <+: name ++ ['\x00'] := h ▸ List.take_prefix _ _
    rcases List.prefix_concat_iff.mp hprefix with rfl | h
    · simp at hw
    · exact h
  · rintro ⟨rest, rfl⟩
    rw [List.append_assoc, List.take_left]

theorem take_eq_take_of_prefix {w name : List Char} (hname : '\x00' ∉ name) (hw : w <+: name)
    (n : ℕ) :
    (name ++ ['\x00']).take n = (w ++ ['\x00']).take n ↔ n ≤ w.length ∨ w = name := by
  obtain ⟨rest, rfl⟩ := hw
  constructor
  · intro h
    by_cases hn : n ≤ w.length
    · exact .inl hn
    · right
      cases rest with
      | nil => rw [List.append_nil]
      | cons d rest =>
          exfalso
          have hget := congrArg (fun l => l[w.length]?) h
          simp only [List.append_assoc, List.getElem?_take, if_pos (Nat.lt_of_not_le hn)] at hget
          rw [List.getElem?_append_right le_rfl, List.getElem?_append_right le_rfl] at hget
          simp at hget
          simp [hget] at hname
  · rintro (hn | hw)
    · rw [List.append_assoc, List.take_append_of_le_length hn, List.take_append_of_le_length hn]
    · rw [← hw]

/-- A command is compared with the beginning that a word is. -/
theorem sameCase_length_iff {name : List Char} {w : Word} (hname : PlainName name)
    (hw : '\x00' ∉ w) : sameCase w.length name w = true ↔ w.map tolower <+: name := by
  have hlower : '\x00' ∉ w.map tolower := by
    intro h
    obtain ⟨d, hd, hdz⟩ := List.mem_map.mp h
    have hdne : d ≠ '\x00' := fun hz => hw (hz ▸ hd)
    exact tolower_ne_zero hdne hdz
  rw [sameCase, hname.map_tolower, beq_iff_eq, ← take_eq_take_iff_prefix hlower, List.length_map]

/-- The two comparisons together. -/
theorem matches_iff {c : Command κ} {w : Word} (hname : PlainName c.command)
    (hw : '\x00' ∉ w) :
    c.matches w = true ↔
      w.map tolower <+: c.command ∧
        (c.uniqueLen ≤ w.length ∨ w.map tolower = c.command) := by
  have hzero : '\x00' ∉ c.command := fun h => (hname _ h).2 rfl
  rw [Command.matches, Bool.and_eq_true, sameCase_length_iff hname hw, and_comm]
  refine and_congr_right fun hpre => ?_
  rw [sameCase, hname.map_tolower, beq_iff_eq, take_eq_take_of_prefix hzero hpre, List.length_map]

/-! ## What a word stands for -/

/-- A word stands for the visible command at position `i`. -/
structure Abbreviates (privilege mode : ℤ) (commands : List (Command κ)) (w : Word) (i : ℕ)
    (c : Command κ) : Prop where
  at_position : commands[i]? = some c
  visible : c.visible privilege mode = true
  ne_nil : w ≠ []
  begins : w.map tolower <+: c.command
  alone : w.map tolower = c.command ∨
    ∀ j d, commands[j]? = some d → j ≠ i → d.visible privilege mode = true →
      ¬ w.map tolower <+: d.command

/-- The names of a list as they are registered: the visible ones differ. -/
structure NamesOk (privilege mode : ℤ) (commands : List (Command κ)) : Prop where
  plain : ∀ c ∈ commands, PlainName c.command ∧ c.command ≠ []
  distinct : ∀ (i j : ℕ) (c d : Command κ), commands[i]? = some c → commands[j]? = some d →
    c.visible privilege mode = true → d.visible privilege mode = true →
    c.command = d.command → i = j

theorem namesOk_of_nodup (privilege mode : ℤ) {commands : List (Command κ)}
    (hplain : ∀ name ∈ commands.map Command.command, PlainName name ∧ name ≠ [])
    (hnodup : (commands.map Command.command).Nodup) : NamesOk privilege mode commands where
  plain := fun c hc => hplain c.command (List.mem_map_of_mem hc)
  distinct := by
    intro i j c d hc hd _ _ hname
    have hi : (commands.map Command.command)[i]? = some c.command := by
      rw [List.getElem?_map, hc, Option.map_some]
    have hj : (commands.map Command.command)[j]? = some c.command := by
      rw [List.getElem?_map, hd, Option.map_some, hname]
    obtain ⟨hlt, -⟩ := List.getElem?_eq_some_iff.mp hi
    exact (List.getElem?_inj hlt hnodup).mp (hi.trans hj.symm)

instance (name : List Char) : Decidable (PlainName name) := by
  unfold PlainName
  infer_instance

section Loop

variable {privilege mode : ℤ} {commands : List (Command κ)} {w : Word}

theorem Abbreviates.unique (hnames : NamesOk privilege mode commands) {i j : ℕ}
    {c d : Command κ} (hi : Abbreviates privilege mode commands w i c)
    (hj : Abbreviates privilege mode commands w j d) : i = j := by
  by_contra hne
  rcases hi.alone with hc | hother
  · rcases hj.alone with hd | hother
    · exact hne (hnames.distinct i j c d hi.at_position hj.at_position hi.visible hj.visible
        (hc.symm.trans hd))
    · exact hother i c hi.at_position hne hi.visible hi.begins
  · exact hother j d hj.at_position (fun h => hne h.symm) hj.visible hj.begins

/-- The comparisons decide what a word stands for. -/
theorem matches_iff_abbreviates (hfresh : Fresh privilege mode commands)
    (hnames : NamesOk privilege mode commands) (hw : '\x00' ∉ w) {i : ℕ} {c : Command κ}
    (hc : commands[i]? = some c) (hv : c.visible privilege mode = true) :
    c.matches w = true ↔ Abbreviates privilege mode commands w i c := by
  obtain ⟨hplain, hne⟩ := hnames.plain c (List.mem_of_getElem? hc)
  rw [matches_iff hplain hw, hfresh.uniqueLen hc hv, shortest_le_iff]
  have hlen : (w.map tolower).length = w.length := List.length_map tolower
  constructor
  · rintro ⟨hbegins, halone⟩
    have hw_ne : w ≠ [] := by
      rintro rfl
      rcases halone with ⟨hone, -⟩ | hname
      · simp at hone
      · exact hne hname.symm
    refine ⟨hc, hv, hw_ne, hbegins, ?_⟩
    rcases halone with ⟨-, hothers⟩ | hname
    · right
      intro j d hd hj hdv
      rw [← sharedLen_le_iff hbegins, hlen]
      exact hothers j d hd hj hdv
    · exact .inl hname
  · rintro ⟨-, -, hw_ne, hbegins, hname | hothers⟩
    · exact ⟨hbegins, .inr hname⟩
    · refine ⟨hbegins, .inl ⟨List.length_pos_iff.mpr hw_ne, fun j d hd hj hdv => ?_⟩⟩
      rw [← hlen, sharedLen_le_iff hbegins]
      exact hothers j d hd hj hdv

/-- A command that is not visible has to be typed in full. -/
theorem matches_iff_hidden (hfresh : Fresh privilege mode commands)
    (hnames : NamesOk privilege mode commands) (hw : '\x00' ∉ w) {i : ℕ} {c : Command κ}
    (hc : commands[i]? = some c) (hv : c.visible privilege mode = false) :
    c.matches w = true ↔ w.map tolower = c.command := by
  obtain ⟨hplain, -⟩ := hnames.plain c (List.mem_of_getElem? hc)
  rw [matches_iff hplain hw, hfresh.uniqueLen_hidden hc hv]
  constructor
  · rintro ⟨hbegins, hlen | hname⟩
    · refine hbegins.eq_of_length_le ?_
      rwa [List.length_map]
    · exact hname
  · exact fun hname => ⟨hname ▸ List.prefix_rfl, .inr hname⟩

/-! ## The loop over the commands -/

/-- A command of `MODE_CONFIG` that is remembered for a session in a mode behind it. -/
def ConfigHit (privilege mode : ℤ) (w : Word) (c : Command κ) : Prop :=
  c.privilege ≤ privilege ∧ c.matches w = true ∧ mode > MODE_CONFIG ∧ c.mode = MODE_CONFIG

instance (privilege mode : ℤ) (w : Word) (c : Command κ) :
    Decidable (ConfigHit privilege mode w c) :=
  inferInstanceAs (Decidable (_ ∧ _ ∧ _ ∧ _))

/-- `again_config` after the loop. -/
def lastConfig (privilege mode : ℤ) (w : Word) : List (Command κ) → ℕ → Option ℕ → Option ℕ
  | [], _, againConfig => againConfig
  | c :: cs, i, againConfig =>
    lastConfig privilege mode w cs (i + 1)
      (if ConfigHit privilege mode w c then some i else againConfig)

theorem lastConfig_append (pre rest : List (Command κ)) (i : ℕ) (againConfig : Option ℕ) :
    lastConfig privilege mode w (pre ++ rest) i againConfig =
      lastConfig privilege mode w rest (i + pre.length)
        (lastConfig privilege mode w pre i againConfig) := by
  induction pre generalizing i againConfig with
  | nil => rfl
  | cons c pre ih =>
      rw [List.cons_append, lastConfig, lastConfig, ih, List.length_cons, Nat.add_assoc,
        Nat.add_comm 1]

theorem lastConfig_eq_none_iff (cs : List (Command κ)) (i : ℕ) (againConfig : Option ℕ) :
    lastConfig privilege mode w cs i againConfig = none ↔
      againConfig = none ∧ ∀ c ∈ cs, ¬ ConfigHit privilege mode w c := by
  induction cs generalizing i againConfig with
  | nil => simp [lastConfig]
  | cons c cs ih =>
      rw [lastConfig, ih, List.forall_mem_cons]
      split
      · next hit => simp [hit]
      · next hit => simp [hit]

/-- Commands that cannot be used now are passed over, or remembered. -/
theorem findLoop_skip {pre : List (Command κ)}
    (hpre : ∀ c ∈ pre, c.visible privilege mode = true → c.matches w = false)
    (rest : List (Command κ)) (i : ℕ) (againConfig againAny : Option ℕ) :
    findLoop privilege mode w (pre ++ rest) i againConfig againAny =
      findLoop privilege mode w rest (i + pre.length)
        (lastConfig privilege mode w pre i againConfig) againAny := by
  induction pre generalizing i againConfig with
  | nil => rfl
  | cons c pre ih =>
      obtain ⟨hc, hpre⟩ := List.forall_mem_cons.mp hpre
      have hstep : findLoop privilege mode w (c :: (pre ++ rest)) i againConfig againAny =
          findLoop privilege mode w (pre ++ rest) (i + 1)
            (if ConfigHit privilege mode w c then some i else againConfig) againAny := by
        rw [findLoop]
        by_cases hpriv : privilege < c.privilege
        · have hno : ¬ ConfigHit privilege mode w c := fun h => absurd h.1 (not_le.mpr hpriv)
          rw [if_pos hpriv, if_neg hno]
        · rw [if_neg hpriv]
          by_cases hmatch : c.matches w = false
          · have hno : ¬ ConfigHit privilege mode w c := fun h => by simpa [hmatch] using h.2.1
            rw [if_pos hmatch, if_neg hno]
          · have hhidden : c.visible privilege mode ≠ true := fun hv => hmatch (hc hv)
            have hmode : c.mode ≠ MODE_ANY ∧ c.mode ≠ mode := by
              simpa [Command.visible, not_lt.mp hpriv] using hhidden
            rw [if_neg hmatch, if_neg (by simp [hmode])]
            by_cases hconfig : mode > MODE_CONFIG ∧ c.mode = MODE_CONFIG
            · have hit : ConfigHit privilege mode w c :=
                ⟨not_lt.mp hpriv, by simpa using hmatch, hconfig⟩
              rw [if_pos hconfig, if_pos hit]
            · have hno : ¬ ConfigHit privilege mode w c := fun h => hconfig h.2.2
              rw [if_neg hconfig, if_neg hmode.1, if_neg hno]
      rw [List.cons_append, hstep, ih hpre, lastConfig, List.length_cons, Nat.add_assoc,
        Nat.add_comm 1]

/-- A visible command that matches alone is used, unless a command of the
configuration mode takes its place. -/
theorem findLoop_of_matches {pre post : List (Command κ)} {c : Command κ}
    (hpre : ∀ d ∈ pre, d.visible privilege mode = true → d.matches w = false)
    (hpost : ∀ d ∈ post, d.visible privilege mode = true → d.matches w = false)
    (hv : c.visible privilege mode = true) (hmatch : c.matches w = true) :
    findLoop privilege mode w (pre ++ c :: post) 0 none none =
      if c.mode = mode then some (pre.length, false)
      else match lastConfig privilege mode w (pre ++ c :: post) 0 none with
        | some j => some (j, true)
        | none => some (pre.length, false) := by
  have hpriv : c.privilege ≤ privilege := by
    simp only [Command.visible, Bool.and_eq_true, decide_eq_true_eq] at hv
    exact hv.2
  rw [findLoop_skip hpre, findLoop, if_neg (not_lt.mpr hpriv), if_neg (by simp [hmatch]),
    Nat.zero_add]
  by_cases hmode : c.mode = mode
  · rw [if_pos (.inl hmode), if_pos hmode]
  · have hany : c.mode = MODE_ANY := by
      simp only [Command.visible, Bool.and_eq_true, Bool.or_eq_true, beq_iff_eq] at hv
      exact hv.1.resolve_right hmode
    have hconfig : ¬ (mode > MODE_CONFIG ∧ c.mode = MODE_CONFIG) := by
      rw [hany]
      rintro ⟨-, h⟩
      exact absurd h (by decide)
    have hno : ¬ ConfigHit privilege mode w c := fun h => hconfig h.2.2
    have hend := findLoop_skip hpost [] (pre.length + 1)
      (lastConfig privilege mode w pre 0 none) (some pre.length)
    rw [List.append_nil] at hend
    rw [if_neg (by simp [hmode]), if_neg hconfig, if_pos hany, if_neg hmode, hend,
      lastConfig_append, lastConfig, if_neg hno, Nat.zero_add]
    cases lastConfig privilege mode w post (pre.length + 1)
        (lastConfig privilege mode w pre 0 none) <;> rfl

/-- A word selects a command: it stands for it, and in a mode behind the
configuration mode it is not the name of a command of that mode, unless the
command belongs to the mode of the session. -/
structure Selects (privilege mode : ℤ) (commands : List (Command κ)) (w : Word) (i : ℕ)
    (c : Command κ) : Prop extends Abbreviates privilege mode commands w i c where
  here : c.mode = mode ∨ mode ≤ MODE_CONFIG ∨
    ∀ d ∈ commands, d.privilege ≤ privilege → d.mode = MODE_CONFIG → w.map tolower ≠ d.command

theorem configHit_iff (hfresh : Fresh privilege mode commands)
    (hnames : NamesOk privilege mode commands) (hw : '\x00' ∉ w) {d : Command κ}
    (hd : d ∈ commands) :
    ConfigHit privilege mode w d ↔
      d.privilege ≤ privilege ∧ w.map tolower = d.command ∧ mode > MODE_CONFIG ∧
        d.mode = MODE_CONFIG := by
  obtain ⟨j, hj⟩ := List.mem_iff_getElem?.mp hd
  refine and_congr_right fun _ => and_congr_left fun hmode => ?_
  refine matches_iff_hidden hfresh hnames hw hj ?_
  have hany : d.mode ≠ MODE_ANY := by
    rw [hmode.2]
    decide
  have hother : d.mode ≠ mode := by
    rw [hmode.2]
    exact hmode.1.ne
  simp [Command.visible, hany, hother]

/-- In a fresh list a word finds the command that it selects, and no other without
a change of the mode. -/
theorem findLoop_eq_some_iff (hfresh : Fresh privilege mode commands)
    (hnames : NamesOk privilege mode commands) (hw : '\x00' ∉ w) (i : ℕ) :
    findLoop privilege mode w commands 0 none none = some (i, false) ↔
      ∃ c, Selects privilege mode commands w i c := by
  have hmatches : ∀ {j : ℕ} {d : Command κ}, commands[j]? = some d →
      d.visible privilege mode = true →
      (d.matches w = true ↔ Abbreviates privilege mode commands w j d) :=
    fun hd hv => matches_iff_abbreviates hfresh hnames hw hd hv
  -- the loop, if some visible command matches
  have hfound : ∀ {k : ℕ} {c : Command κ}, Abbreviates privilege mode commands w k c →
      findLoop privilege mode w commands 0 none none =
        if c.mode = mode then some (k, false)
        else match lastConfig privilege mode w commands 0 none with
          | some j => some (j, true)
          | none => some (k, false) := by
    intro k c habbr
    obtain ⟨hk, hget⟩ := List.getElem?_eq_some_iff.mp habbr.at_position
    have hsplit : commands = commands.take k ++ c :: commands.drop (k + 1) := by
      rw [← hget, List.getElem_cons_drop, List.take_append_drop]
    have hlen : (commands.take k).length = k := List.length_take_of_le hk.le
    have hother : ∀ {j : ℕ} {d : Command κ}, commands[j]? = some d → j ≠ k →
        d.visible privilege mode = true → d.matches w = false := by
      intro j d hd hjk hv
      rw [Bool.eq_false_iff, Ne, hmatches hd hv]
      exact fun h => hjk (h.unique hnames habbr)
    have hpre : ∀ d ∈ commands.take k, d.visible privilege mode = true → d.matches w = false := by
      intro d hd hv
      obtain ⟨j, hj⟩ := List.mem_iff_getElem?.mp hd
      rw [List.getElem?_take] at hj
      split at hj
      · next hjk => exact hother hj hjk.ne hv
      · cases hj
    have hpost : ∀ d ∈ commands.drop (k + 1), d.visible privilege mode = true →
        d.matches w = false := by
      intro d hd hv
      obtain ⟨j, hj⟩ := List.mem_iff_getElem?.mp hd
      rw [List.getElem?_drop] at hj
      exact hother hj (by omega) hv
    have hloop := findLoop_of_matches hpre hpost habbr.visible
      ((hmatches habbr.at_position habbr.visible).mpr habbr)
    rw [← hsplit, hlen] at hloop
    exact hloop
  have hconfig : lastConfig privilege mode w commands 0 none = none ↔
      mode ≤ MODE_CONFIG ∨ ∀ d ∈ commands, d.privilege ≤ privilege → d.mode = MODE_CONFIG →
        w.map tolower ≠ d.command := by
    rw [lastConfig_eq_none_iff, and_iff_right rfl]
    constructor
    · intro hnone
      rw [or_iff_not_imp_left, not_le]
      intro hmode d hd hpriv hdm hname
      exact hnone d hd ((configHit_iff hfresh hnames hw hd).mpr ⟨hpriv, hname, hmode, hdm⟩)
    · rintro hnone d hd hit
      obtain ⟨hpriv, hname, hmode, hdm⟩ := (configHit_iff hfresh hnames hw hd).mp hit
      rcases hnone with hle | hnone
      · exact absurd hmode (not_lt.mpr hle)
      · exact hnone d hd hpriv hdm hname
  constructor
  · intro hresult
    by_cases hsome : ∃ k c, Abbreviates privilege mode commands w k c
    · obtain ⟨k, c, habbr⟩ := hsome
      rw [hfound habbr] at hresult
      by_cases hmode : c.mode = mode
      · rw [if_pos hmode] at hresult
        cases hresult
        exact ⟨c, habbr, .inl hmode⟩
      · rw [if_neg hmode] at hresult
        cases hlast : lastConfig privilege mode w commands 0 none with
        | some j =>
            rw [hlast] at hresult
            cases hresult
        | none =>
            rw [hlast] at hresult
            cases hresult
            exact ⟨c, habbr, .inr (hconfig.mp hlast)⟩
    · exfalso
      have hnone : ∀ d ∈ commands, d.visible privilege mode = true → d.matches w = false := by
        intro d hd hv
        obtain ⟨j, hj⟩ := List.mem_iff_getElem?.mp hd
        rw [Bool.eq_false_iff, Ne, hmatches hj hv]
        exact fun h => hsome ⟨j, d, h⟩
      have hskip := findLoop_skip hnone [] 0 none none
      rw [List.append_nil, hresult] at hskip
      cases hlast : lastConfig privilege mode w commands 0 none <;>
        simp [hlast, findLoop] at hskip
  · rintro ⟨c, habbr, hhere⟩
    rw [hfound habbr]
    rcases hhere with hmode | hnone
    · rw [if_pos hmode]
    · rw [hconfig.mpr hnone]
      exact ite_self _

end Loop

end EceLib.Cli
